import Jos.FsFormat
import Mathlib.Data.List.TakeWhile

/-!
# What is on a formatted disk

The formatter puts a file into consecutive blocks, with the indirect block after
them.  `Extent` says so of the slots of a file, `FileAt` of a file of the host and
its record, `FilesAt` of a list of them, and `Image` of the whole disk.

A record and the blocks of its file are known by their bytes (`FileAt.move`), so
that a record can be copied.
-/

namespace Jos

open Bytes

/-- The number of blocks of `n` bytes. -/
def blocksOf (n : Nat) : Nat := (n + 4095) / 4096

/-- The number of blocks that a file of `n` blocks takes, with its indirect block. -/
def spanOf (n : Nat) : Nat := n + if ndirect ≤ n then 1 else 0

/-- The number of blocks that a file of the host takes. -/
def HostFile.span (g : HostFile) : Nat := spanOf (blocksOf g.data.length)

/-- The first block after the files, if they start at block `p`. -/
def endOf (p : Nat) : List HostFile → Nat
  | [] => p
  | g :: gs => endOf (p + g.span) gs

/-- The number of blocks that the directory of `n` files is given: never none. -/
def dirSpan (n : Nat) : Nat := max 1 (blocksOf (n * 256))

/-- The slots of file `f` have `n` blocks from `start` on; the indirect block comes
after them. -/
structure Extent (v : Bytes.Memory) (f start n : Nat) : Prop where
  direct : ∀ i, i < ndirect → word v (fDirectVa f i) =
    if i < n then BitVec.ofNat 32 (start + i) else 0#32
  indirect : word v (fIndirectVa f) =
    if ndirect ≤ n then BitVec.ofNat 32 (start + n) else 0#32
  entries : ndirect ≤ n → ∀ j, j < nindirect → word v (blkVa (start + n) + 4 * j) =
    if ndirect + j < n then BitVec.ofNat 32 (start + (ndirect + j)) else 0#32

/-- The record at `f` is that of a file of the host, whose blocks start at `start`. -/
structure FileAt (v : Bytes.Memory) (f start : Nat) (g : HostFile) : Prop where
  short : g.name.length < maxnamelen
  size_lt : g.data.length < maxfilesize
  name : NameAt v f g.name
  type : word v (fTypeVa f) = ftypeReg
  size : word v (fSizeVa f) = BitVec.ofNat 32 g.data.length
  extent : Extent v f start (blocksOf g.data.length)
  data : bytesAt v (blkVa start) g.data.length = g.data

/-- The records from `f` on are those of files, whose blocks start at `p`. -/
def FilesAt (v : Bytes.Memory) (f p : Nat) : List HostFile → Prop
  | [] => True
  | g :: gs => FileAt v f p g ∧ FilesAt v (f + 256) (p + g.span) gs

/-- The disk that `fsformat` makes of files. -/
structure Image (v : Bytes.Memory) (nblocks : Nat) (files : List HostFile) : Prop where
  magic : word v superVa = fsMagic
  blocks : diskBlocks v = nblocks
  small : nblocks ≤ 1024
  type : IsDir v rootVa
  size : word v (fSizeVa rootVa) = BitVec.ofNat 32 (dirSpan files.length * 4096)
  extent : Extent v rootVa (endOf 3 files) (dirSpan files.length)
  records : FilesAt v (blkVa (endOf 3 files)) 3 files
  count : files.length ≤ maxDirEnts
  rest : ∀ m, files.length ≤ m → m < dirSpan files.length * blkfiles →
    v (blkVa (endOf 3 files) + 256 * m) = 0#8
  room : endOf 3 files + blocksOf (files.length * 256) < nblocks
  free : ∀ b, b < nblocks → (Free v b ↔ endOf 3 files + blocksOf (files.length * 256) ≤ b)

theorem lastName_mem {path : List U8} {c : U8} (h : c ∈ lastName path) :
    c ∈ path ∧ c ≠ slash := by
  have hmem := List.mem_reverse.mp h
  have hslash := List.mem_takeWhile_imp hmem
  exact ⟨List.mem_reverse.mp (List.takeWhile_subset _ hmem), of_decide_eq_true hslash⟩

theorem HostFile.name_nul (g : HostFile) : 0#8 ∉ g.name := fun h => g.nul (lastName_mem h).1

section Extents

variable {v v' : Bytes.Memory} {f f' p start n b : Nat} {g : HostFile} {gs : List HostFile}

theorem blocksOf_le {n : Nat} : n ≤ blocksOf n * 4096 ∧ blocksOf n * 4096 < n + 4096 := by
  unfold blocksOf
  omega

theorem spanOf_ge : n ≤ spanOf n := Nat.le_add_right _ _

theorem endOf_ge : p ≤ endOf p gs := by
  induction gs generalizing p with
  | nil => exact Nat.le_refl p
  | cons g gs ih => exact Nat.le_trans (Nat.le_add_right p g.span) ih

theorem blkVa_add {i : Nat} : blkVa (p + i) = blkVa p + i * 4096 := by
  unfold blkVa blksize
  omega

/-- A file without an indirect block. -/
theorem extent_direct (hn : n < ndirect)
    (hset : ∀ i, i < n → word v (f + 136 + 4 * i) = BitVec.ofNat 32 (start + i))
    (hzero : ∀ x, f + 136 + 4 * n ≤ x → x < f + 180 → v x = 0#8) : Extent v f start n where
  direct := fun i hi => by
    unfold ndirect at hi
    unfold fDirectVa
    split
    · exact hset i ‹i < n›
    · exact word_zero (fun x hle hlt => hzero x (by omega) (by omega))
  indirect := by
    unfold ndirect at hn
    unfold fIndirectVa
    rw [if_neg (by unfold ndirect; omega)]
    exact word_zero (fun x hle hlt => hzero x (by omega) (by omega))
  entries := fun hle => absurd hn (Nat.not_lt.mpr hle)

/-- A file with an indirect block. -/
theorem extent_indirect (hn : ndirect ≤ n)
    (hset : ∀ i, i < ndirect → word v (f + 136 + 4 * i) = BitVec.ofNat 32 (start + i))
    (hind : word v (f + 176) = BitVec.ofNat 32 (start + n))
    (hentry : ∀ j, j < n - ndirect →
      word v (blkVa (start + n) + 4 * j) = BitVec.ofNat 32 (start + (ndirect + j)))
    (hzero : ∀ x, blkVa (start + n) + 4 * (n - ndirect) ≤ x →
      x < blkVa (start + n) + 4096 → v x = 0#8) : Extent v f start n where
  direct := fun i hi => by
    rw [if_pos (Nat.lt_of_lt_of_le hi hn)]
    exact hset i hi
  indirect := by
    rw [if_pos hn]
    exact hind
  entries := fun _ j hj => by
    unfold nindirect at hj
    split
    · exact hentry j (by omega)
    · exact word_zero (fun x hle hlt => hzero x (by omega) (by omega))

/-- The slots are known by the bytes of the record and of the indirect block. -/
theorem Extent.move (h : Extent v f start n)
    (hrec : ∀ x, x < 256 → v' (f' + x) = v (f + x))
    (hblk : ∀ x, blkVa start ≤ x → x < blkVa (start + spanOf n) → v' x = v x) :
    Extent v' f' start n where
  direct := fun i hi => by
    rw [← h.direct i hi]
    refine word_shift (fun k hk => ?_)
    unfold ndirect at hi
    unfold fDirectVa
    simp only [Nat.add_assoc]
    exact hrec _ (by omega)
  indirect := by
    rw [← h.indirect]
    refine word_shift (fun k hk => ?_)
    unfold fIndirectVa
    simp only [Nat.add_assoc]
    exact hrec _ (by omega)
  entries := fun hn j hj => by
    rw [← h.entries hn j hj]
    refine word_congr (fun x hle hlt => hblk x ?_ ?_)
    · rw [blkVa_add] at hle
      omega
    · unfold spanOf
      rw [if_pos hn]
      unfold nindirect at hj
      rw [← Nat.add_assoc, blkVa_add]
      omega

theorem FileAt.move (h : FileAt v f start g)
    (hrec : ∀ x, x < 256 → v' (f' + x) = v (f + x))
    (hblk : ∀ x, blkVa start ≤ x → x < blkVa (start + g.span) → v' x = v x) :
    FileAt v' f' start g where
  short := h.short
  size_lt := h.size_lt
  name := by
    refine (bytesAt_shift (fun k hk => hrec k ?_)).trans h.name
    have hshort := h.short
    unfold maxnamelen at hshort
    omega
  type := by
    rw [← h.type]
    refine word_shift (fun k hk => ?_)
    unfold fTypeVa
    simp only [Nat.add_assoc]
    exact hrec _ (by omega)
  size := by
    rw [← h.size]
    refine word_shift (fun k hk => ?_)
    unfold fSizeVa
    simp only [Nat.add_assoc]
    exact hrec _ (by omega)
  extent := h.extent.move hrec hblk
  data := by
    refine (bytesAt_congr (fun x hle hlt => hblk x hle ?_)).trans h.data
    have hblocks := (blocksOf_le (n := g.data.length)).1
    have hspan := spanOf_ge (n := blocksOf g.data.length)
    unfold HostFile.span
    rw [blkVa_add]
    omega

/-- A file stays where nothing is written to its record and its blocks. -/
theorem FileAt.congr (h : FileAt v f start g)
    (hrec : ∀ x, f ≤ x → x < f + 256 → v' x = v x)
    (hblk : ∀ x, blkVa start ≤ x → x < blkVa (start + g.span) → v' x = v x) :
    FileAt v' f start g :=
  h.move (fun x hx => hrec (f + x) (Nat.le_add_right f x) (by omega)) hblk

theorem FilesAt.move (h : FilesAt v f p gs)
    (hrec : ∀ x, x < gs.length * 256 → v' (f' + x) = v (f + x))
    (hblk : ∀ x, blkVa p ≤ x → x < blkVa (endOf p gs) → v' x = v x) :
    FilesAt v' f' p gs := by
  induction gs generalizing f f' p with
  | nil => trivial
  | cons g gs ih =>
      have hend : p + g.span ≤ endOf (p + g.span) gs := endOf_ge
      rw [List.length_cons] at hrec
      refine ⟨h.1.move (fun x hx => hrec x (by omega)) (fun x hle hlt => hblk x hle ?_),
        ih h.2 (fun x hx => ?_) (fun x hle hlt => hblk x ?_ hlt)⟩
      · refine Nat.lt_of_lt_of_le hlt ?_
        unfold blkVa
        exact Nat.add_le_add_left (Nat.mul_le_mul_right _ hend) _
      · rw [Nat.add_assoc, Nat.add_assoc]
        exact hrec (256 + x) (by omega)
      · rw [blkVa_add] at hle
        omega

/-- The file that is found at a place of the list. -/
theorem FilesAt.get (h : FilesAt v f p gs) {i : Nat} (hi : i < gs.length) :
    FileAt v (f + 256 * i) (endOf p (gs.take i)) gs[i] := by
  induction gs generalizing f p i with
  | nil => exact absurd hi (Nat.not_lt_zero i)
  | cons g gs ih =>
      cases i with
      | zero => exact h.1
      | succ i =>
          have hget := ih h.2 (Nat.lt_of_succ_lt_succ hi)
          rw [show f + 256 * (i + 1) = f + 256 + 256 * i by omega]
          exact hget

/-- The blocks of the files come one after the other. -/
theorem endOf_take {i : Nat} (hi : i < gs.length) :
    endOf p (gs.take (i + 1)) = endOf p (gs.take i) + gs[i].span := by
  induction gs generalizing p i with
  | nil => exact absurd hi (Nat.not_lt_zero i)
  | cons g gs ih =>
      cases i with
      | zero => rfl
      | succ i => exact ih (Nat.lt_of_succ_lt_succ hi)

theorem endOf_take_le {i j : Nat} (hij : i ≤ j) : endOf p (gs.take i) ≤ endOf p (gs.take j) := by
  induction gs generalizing p i j with
  | nil => simp
  | cons g gs ih =>
      cases i with
      | zero => exact endOf_ge
      | succ i =>
          cases j with
          | zero => omega
          | succ j => exact ih (Nat.le_of_succ_le_succ hij)

theorem endOf_take_all {i : Nat} (hi : i ≤ gs.length) : endOf p (gs.take i) ≤ endOf p gs := by
  have hmono : endOf p (gs.take i) ≤ endOf p (gs.take gs.length) := endOf_take_le hi
  rwa [List.take_length] at hmono

end Extents

end Jos

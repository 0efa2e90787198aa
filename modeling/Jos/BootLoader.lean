import Jos.Lib.Bytes
import Jos.Lib.LastWrite
import Jos.Lib.WhileLoop
import Jos.LoadIcode

/-!
# The boot loader, `boot/main.c`

`bootmain` reads the first page of the kernel image, which has the program headers,
and loads the segments.  `readseg` reads whole sectors: the sector in which a segment
starts is read as well in front of the segment, where an earlier segment may end.
What is found there is then whatever the image has in front of the later segment's
bytes.
-/

namespace Jos

namespace Loader

open Bytes WhileLoop LastWrite

/-- `SECTSIZE`. -/
def sectsize : U32 := 512#32

/-- `ELFHDR`, the scratch page. -/
def elfhdr : U32 := 0x10000#32

/-- The first disk; the kernel image starts at sector 1. -/
abbrev Disk := Nat → U8

/-- A byte of the kernel image. -/
def Disk.image (disk : Disk) (i : Nat) : U8 := disk (512 + i)

/-! ## The program -/

/-- `e_magic`. -/
def eMagic (v : Bytes.Memory) : U32 := word v elfhdr.toNat

/-- `e_entry`. -/
def eEntry (v : Bytes.Memory) : U32 := word v (elfhdr.toNat + 24)

/-- `e_phoff`. -/
def ePhoff (v : Bytes.Memory) : U32 := word v (elfhdr.toNat + 28)

/-- `e_phnum`, of 16 bits. -/
def ePhnum (v : Bytes.Memory) : U32 := word v (elfhdr.toNat + 44) &&& 0xFFFF#32

/-- `ph->p_offset`. -/
def pOffset (v : Bytes.Memory) (ph : U32) : U32 := word v (ph.toNat + 4)

/-- `ph->p_pa`. -/
def pPa (v : Bytes.Memory) (ph : U32) : U32 := word v (ph.toNat + 12)

/-- `ph->p_filesz`. -/
def pFilesz (v : Bytes.Memory) (ph : U32) : U32 := word v (ph.toNat + 16)

/-- `ph->p_memsz`. -/
def pMemsz (v : Bytes.Memory) (ph : U32) : U32 := word v (ph.toNat + 20)

section Program

variable (disk : Disk) (fuel : Nat)

/-- `readsect`; the controller takes 28 bits of the sector's number. -/
def readsect (dst offset : U32) (v : Bytes.Memory) : Bytes.Memory := fun x =>
  if dst.toNat ≤ x ∧ x < dst.toNat + 512 then
    disk (offset.toNat % 2 ^ 28 * 512 + (x - dst.toNat))
  else v x

/-- The variables of `readseg`, and memory. -/
structure Reading where
  pa : U32
  offset : U32
  v : Bytes.Memory

/-- The loop of `readseg` goes on. -/
def Reading.Going (endPa : U32) (s : Reading) : Prop := s.pa < endPa

instance (endPa : U32) : DecidablePred (Reading.Going endPa) :=
  fun s => inferInstanceAs (Decidable (s.pa < endPa))

/-- One turn of the loop of `readseg`. -/
def Reading.turn (s : Reading) : Reading :=
  ⟨s.pa + sectsize, s.offset + 1#32, readsect disk s.pa s.offset s.v⟩

/-- `readseg`. -/
def readseg (pa count offset : U32) (v : Bytes.Memory) : Option Bytes.Memory :=
  let endPa := pa + count
  (whileLoop (Reading.Going endPa) (fun s => some (s.turn disk)) fuel
    ⟨pa &&& ~~~(sectsize - 1#32), offset / sectsize + 1#32, v⟩).map Reading.v

/-- The variable of the loop that clears the rest of a segment, and memory. -/
structure Clearing where
  i : U32
  v : Bytes.Memory

/-- The loop goes on; the header is read again in every turn. -/
def Clearing.Going (ph : U32) (s : Clearing) : Prop := s.i < pMemsz s.v ph - pFilesz s.v ph

instance (ph : U32) : DecidablePred (Clearing.Going ph) :=
  fun s => inferInstanceAs (Decidable (s.i < pMemsz s.v ph - pFilesz s.v ph))

def Clearing.turn (ph : U32) (s : Clearing) : Clearing :=
  ⟨s.i + 1#32, Function.update s.v (pPa s.v ph + pFilesz s.v ph + s.i).toNat 0#8⟩

/-- The loop over the bytes of a segment that are not in the file. -/
def clearRest (ph : U32) (v : Bytes.Memory) : Option Bytes.Memory :=
  (whileLoop (Clearing.Going ph) (fun s => some (s.turn ph)) fuel ⟨0#32, v⟩).map Clearing.v

/-- One turn of the loop over the program headers. -/
def loadSegment (ph : U32) (v : Bytes.Memory) : Option Bytes.Memory := do
  let v ← readseg disk fuel (pPa v ph) (pMemsz v ph) (pOffset v ph) v
  clearRest fuel ph v

/-- The variable of the loop over the program headers, and memory. -/
structure Headers where
  ph : U32
  v : Bytes.Memory

/-- The loop goes on. -/
def Headers.Going (eph : U32) (s : Headers) : Prop := s.ph < eph

instance (eph : U32) : DecidablePred (Headers.Going eph) :=
  fun s => inferInstanceAs (Decidable (s.ph < eph))

def Headers.turn (s : Headers) : Option Headers := do
  let v ← loadSegment disk fuel s.ph s.v
  some ⟨s.ph + 32#32, v⟩

/-- How `bootmain` ends: it jumps to the kernel, or finds no kernel. -/
inductive BootEnd where
  | jump (entry : U32) (v : Bytes.Memory)
  | bad

/-- `bootmain`. -/
def bootmain (v : Bytes.Memory) : Option BootEnd := do
  let v ← readseg disk fuel elfhdr (sectsize * 8#32) 0#32 v
  if eMagic v ≠ elfMagic then some .bad else do
    let ph := elfhdr + ePhoff v
    let eph := ph + ePhnum v * 32#32
    let s ← whileLoop (Headers.Going eph) (Headers.turn disk fuel) fuel ⟨ph, v⟩
    some (.jump (eEntry s.v) s.v)

end Program

/-! ## What is to be loaded -/

/-- A segment, as its program header says. -/
structure Segment where
  pa : Nat
  memsz : Nat
  filesz : Nat
  offset : Nat
deriving DecidableEq

/-- A byte of physical memory belongs to the segment. -/
def Segment.Has (s : Segment) (x : Nat) : Prop := s.pa ≤ x ∧ x < s.pa + s.memsz

/-- The value that byte `k` of the segment is to have. -/
def Segment.byte (disk : Disk) (s : Segment) (k : Nat) : U8 :=
  if k < s.filesz then disk.image (s.offset + k) else 0#8

/-- The word at a place of the kernel image. -/
def Disk.word (disk : Disk) (i : Nat) : U32 := Bytes.word disk.image i

/-- The number of program headers. -/
def Disk.phnum (disk : Disk) : Nat := (disk.word 44 &&& 0xFFFF#32).toNat

/-- Program header `i` of the kernel image. -/
def Disk.segment (disk : Disk) (i : Nat) : Segment :=
  let ph := (disk.word 28).toNat + 32 * i
  { pa := (disk.word (ph + 12)).toNat
    memsz := (disk.word (ph + 20)).toNat
    filesz := (disk.word (ph + 16)).toNat
    offset := (disk.word (ph + 4)).toNat }

/-- The segments of the kernel image. -/
def Disk.segments (disk : Disk) : List Segment := (List.range disk.phnum).map disk.segment

/-- The images that the loader is for. -/
structure KernelImage (disk : Disk) : Prop where
  magic : disk.word 0 = elfMagic
  headers : (disk.word 28).toNat + 32 * disk.phnum ≤ 4096
  increasing : disk.segments.Pairwise (fun s t => s.pa ≤ t.pa)
  apart : disk.segments.Pairwise (fun s t => ∀ x, ¬ (s.Has x ∧ t.Has x))
  scratch : ∀ s, s ∈ disk.segments → ∀ x, s.Has x → x < 0x10000 ∨ 0x11000 ≤ x
  filesz : ∀ s, s ∈ disk.segments → s.filesz ≤ s.memsz
  below : ∀ s, s ∈ disk.segments → s.pa + s.memsz < 2 ^ 32 - 512
  congruent : ∀ s, s ∈ disk.segments → s.offset % 512 = s.pa % 512

/-- Every byte of every segment has its value. -/
def Loaded (disk : Disk) (v : Bytes.Memory) : Prop :=
  ∀ s, s ∈ disk.segments → ∀ k, k < s.memsz → v (s.pa + k) = s.byte disk k

/-- The sectors that are read for a segment have this byte. -/
def Segment.Covers (s : Segment) (x : Nat) : Prop :=
  s.pa / 512 * 512 ≤ x ∧ x < (s.pa + s.memsz + 511) / 512 * 512

instance (s : Segment) (x : Nat) : Decidable (s.Covers x) := instDecidableAnd

/-- Where sectors are read over the scratch page, for empty segments, they have what is
there. -/
def HeadersKept (disk : Disk) : Prop :=
  ∀ s, s ∈ disk.segments → ∀ i, i < 4096 → s.Covers (0x10000 + i) →
    disk.image (s.offset / 512 * 512 + (0x10000 + i - s.pa / 512 * 512)) = disk.image i

/-- Where sectors are read over a byte of a segment for later segments, the image has
the value of the byte at the place that the last of them is read from. -/
def Harmless (disk : Disk) : Prop :=
  ∀ a s b t c, disk.segments = a ++ s :: (b ++ t :: c) → ∀ k, k < s.memsz →
    t.Covers (s.pa + k) → (∀ t', t' ∈ c → ¬ t'.Covers (s.pa + k)) →
    disk.image (t.offset / 512 * 512 + (s.pa + k - t.pa / 512 * 512)) = s.byte disk k

/-! ## Loading one segment -/

/-- What reading the sectors of a segment does to memory. -/
def Segment.sectors (disk : Disk) (v : Bytes.Memory) (s : Segment) : Bytes.Memory := fun x =>
  if s.pa / 512 * 512 ≤ x ∧ x < (s.pa + s.memsz + 511) / 512 * 512 then
    disk.image (s.offset / 512 * 512 + (x - s.pa / 512 * 512))
  else v x

/-- What loading a segment does to memory. -/
def Segment.load (disk : Disk) (v : Bytes.Memory) (s : Segment) : Bytes.Memory := fun x =>
  if s.pa + s.filesz ≤ x ∧ x < s.pa + s.memsz then 0#8 else s.sectors disk v x

section Loading

variable {disk : Disk} {fuel : Nat} {v : Bytes.Memory} {s t : Segment} {x k : Nat}

theorem frames_load (disk : Disk) :
    Frames (Segment.load disk) Segment.Covers := by
  intro v s x hx
  unfold Segment.Covers at hx
  unfold Segment.load Segment.sectors
  rw [if_neg (by omega), if_neg hx]

/-- A segment comes to memory with its own loading. -/
theorem load_self (hcong : s.offset % 512 = s.pa % 512)
    (hk : k < s.memsz) : s.load disk v (s.pa + k) = s.byte disk k := by
  unfold Segment.load Segment.sectors Segment.byte
  by_cases hin : k < s.filesz
  · rw [if_neg (by omega), if_pos (by omega), if_pos hin]
    congr 1
    omega
  · rw [if_pos (by omega), if_neg hin]

/-- A byte of another segment comes from the sectors. -/
theorem load_other (hx : t.Covers x) (hnot : ¬ t.Has x) :
    t.load disk v x = disk.image (t.offset / 512 * 512 + (x - t.pa / 512 * 512)) := by
  unfold Segment.Has at hnot
  unfold Segment.Covers at hx
  unfold Segment.load Segment.sectors
  rw [if_neg (by omega), if_pos hx]

/-- All segments are in memory at the end if and only if the later loadings do no harm. -/
theorem loaded_iff (h : KernelImage disk) (v : Bytes.Memory) :
    Loaded disk (disk.segments.foldl (Segment.load disk) v) ↔ Harmless disk := by
  have hframes := frames_load disk
  constructor
  · intro hloaded a s b t c heq k hk hcovers hlast
    have hmem : s ∈ disk.segments := by
      rw [heq]
      exact List.mem_append_right a List.mem_cons_self
    have happart := h.apart
    rw [heq] at happart
    have hst : ¬ t.Has (s.pa + k) := by
      intro hhas
      have hpair := (List.pairwise_append.mp happart).2.1
      have hs := (List.pairwise_cons.mp hpair).1 t
        (List.mem_append_right b List.mem_cons_self) (s.pa + k)
      exact hs ⟨⟨Nat.le_add_right _ _, by omega⟩, hhas⟩
    have hfinal := hloaded s hmem k hk
    have hsplit : a ++ s :: (b ++ t :: c) = (a ++ s :: b) ++ t :: c := by simp
    rw [heq, hsplit, foldl_of_last hframes hlast, load_other hcovers hst] at hfinal
    exact hfinal
  · intro hharmless s hmem k hk
    obtain ⟨a, rest, heq⟩ := List.append_of_mem hmem
    have happart := h.apart
    rw [heq] at happart
    have hpair := List.pairwise_cons.mp (List.pairwise_append.mp happart).2.1
    rw [heq]
    rcases none_or_last Segment.Covers (s.pa + k) rest with
      hnone | ⟨b, t, c, rfl, hcovers, hlast⟩
    · rw [foldl_of_last hframes hnone]
      exact load_self (h.congruent s hmem) hk
    · have hst : ¬ t.Has (s.pa + k) := by
        intro hhas
        exact hpair.1 t (List.mem_append_right b List.mem_cons_self) (s.pa + k)
          ⟨⟨Nat.le_add_right _ _, by omega⟩, hhas⟩
      have hsplit : a ++ s :: (b ++ t :: c) = (a ++ s :: b) ++ t :: c := by simp
      rw [hsplit, foldl_of_last hframes hlast, load_other hcovers hst]
      exact hharmless a s b t c heq k hk hcovers hlast

end Loading

/-! ## The program loads the segments -/

section Runs

variable {disk : Disk} {fuel hi : Nat} {v : Bytes.Memory} {pa count offset ph : U32} {s : Segment}

theorem sectsize_toNat : sectsize.toNat = 512 := by decide

theorem down_toNat (pa : U32) : (pa &&& ~~~(sectsize - 1#32)).toNat = pa.toNat / 512 * 512 := by
  have h : pa &&& ~~~(sectsize - 1#32) = (pa >>> 9) <<< 9 := by
    unfold sectsize
    ext i hi
    interval_cases i <;> simp
  have hlt := pa.isLt
  rw [h, BitVec.toNat_shiftLeft, BitVec.toNat_ushiftRight, Nat.shiftRight_eq_div_pow,
    Nat.shiftLeft_eq]
  omega

/-- The memory when `k` sectors have been read from sector `o` of the image on. -/
def sectorsRead (disk : Disk) (d o k : Nat) (v : Bytes.Memory) : Bytes.Memory := fun x =>
  if d ≤ x ∧ x < d + 512 * k then disk.image (o * 512 + (x - d)) else v x

/-- One sector more. -/
theorem readsect_sectorsRead {d o k : Nat} (hpa : pa.toNat = d + 512 * k)
    (hoffset : offset.toNat = o + 1 + k) (hsmall : o + 1 + k < 2 ^ 28) :
    readsect disk pa offset (sectorsRead disk d o k v) = sectorsRead disk d o (k + 1) v := by
  funext x
  unfold readsect sectorsRead Disk.image
  rw [hpa, hoffset, Nat.mod_eq_of_lt hsmall]
  by_cases hin : d + 512 * k ≤ x ∧ x < d + 512 * k + 512
  · rw [if_pos hin, if_pos (by omega)]
    congr 1
    omega
  · rw [if_neg hin]
    by_cases hbefore : d ≤ x ∧ x < d + 512 * k
    · rw [if_pos hbefore, if_pos (by omega)]
    · rw [if_neg hbefore, if_neg (by omega)]

/-- In the loop of `readseg`, some sectors have been read. -/
structure Reading.At (disk : Disk) (v : Bytes.Memory) (d o hi k : Nat) (s : Reading) : Prop where
  pa : s.pa.toNat = d + 512 * k
  offset : s.offset.toNat = o + 1 + k
  le : d + 512 * k ≤ hi
  memory : s.v = sectorsRead disk d o k v

/-- What a loop that counts up still has in front of it. -/
def left (w : U32) : Nat := 2 ^ 32 - w.toNat

theorem left_lt (w : U32) (hfuel : 2 ^ 32 < fuel) : left w < fuel :=
  Nat.lt_of_le_of_lt (Nat.sub_le _ _) hfuel

theorem left_decreases {w w' : U32} (h : w.toNat < w'.toNat) : left w' < left w := by
  have hlt := w'.isLt
  unfold left
  omega

theorem Reading.turn_pa (disk : Disk) {a : Reading} (h : a.pa.toNat < 2 ^ 32 - 512) :
    (a.turn disk).pa.toNat = a.pa.toNat + 512 := by
  have hadd : (a.turn disk).pa.toNat = (a.pa.toNat + sectsize.toNat) % 2 ^ 32 :=
    BitVec.toNat_add a.pa sectsize
  rw [hadd, sectsize_toNat]
  exact Nat.mod_eq_of_lt (by omega)

theorem Reading.turn_offset (disk : Disk) {a : Reading} (h : a.offset.toNat < 2 ^ 28) :
    (a.turn disk).offset.toNat = a.offset.toNat + 1 := by
  have hadd : (a.turn disk).offset.toNat = (a.offset.toNat + 1) % 2 ^ 32 :=
    BitVec.toNat_add a.offset 1#32
  rw [hadd]
  exact Nat.mod_eq_of_lt (by omega)

/-- One turn reads one sector. -/
theorem Reading.At.turn {d o hi k : Nat} {a : Reading} {endPa : U32} (h : a.At disk v d o hi k)
    (hgo : a.Going endPa) (hhi : (endPa.toNat + 511) / 512 * 512 = hi) (hd : d % 512 = 0)
    (hend : endPa.toNat < 2 ^ 32 - 512) (ho : o < 2 ^ 23) :
    (a.turn disk).At disk v d o hi (k + 1) ∧ left (a.turn disk).pa < left a.pa := by
  have hlt : a.pa.toNat < endPa.toNat := BitVec.lt_def.mp hgo
  have hpa := h.pa
  have hoffset := h.offset
  have hnext := Reading.turn_pa disk (Nat.lt_trans hlt hend)
  have hsector := Reading.turn_offset disk (show a.offset.toNat < 2 ^ 28 by omega)
  refine ⟨⟨?_, ?_, ?_, ?_⟩, ?_⟩
  · rw [hnext, hpa, Nat.mul_succ, Nat.add_assoc]
  · rw [hsector, hoffset, Nat.add_assoc]
  · omega
  · change readsect disk a.pa a.offset a.v = _
    rw [h.memory, readsect_sectorsRead hpa hoffset (by omega)]
  · exact left_decreases (by omega)

/-- The loop starts with nothing read. -/
theorem Reading.start_at (hhi : pa.toNat / 512 * 512 ≤ hi) :
    Reading.At disk v (pa.toNat / 512 * 512) (offset.toNat / 512) hi 0
      ⟨pa &&& ~~~(sectsize - 1#32), offset / sectsize + 1#32, v⟩ := by
  have hoff := offset.isLt
  refine ⟨?_, ?_, ?_, ?_⟩
  · rw [Nat.mul_zero, Nat.add_zero]
    exact down_toNat pa
  · have hadd : (offset / sectsize + 1#32).toNat = (offset.toNat / sectsize.toNat + 1) % 2 ^ 32 :=
      BitVec.toNat_add (offset / sectsize) 1#32
    refine hadd.trans ?_
    rw [sectsize_toNat]
    exact Nat.mod_eq_of_lt (by omega)
  · rw [Nat.mul_zero, Nat.add_zero]
    exact hhi
  · funext x
    unfold sectorsRead
    rw [if_neg (by omega)]

/-- `readseg` reads the sectors that have bytes of the range. -/
theorem readseg_eq (hend : pa.toNat + count.toNat < 2 ^ 32 - 512) (hfuel : 2 ^ 32 < fuel) :
    readseg disk fuel pa count offset v = some (Segment.sectors disk v
      { pa := pa.toNat, memsz := count.toNat, filesz := 0, offset := offset.toNat }) := by
  have hoff := offset.isLt
  have hfin : (pa + count).toNat = pa.toNat + count.toNat := by
    rw [BitVec.toNat_add]
    exact Nat.mod_eq_of_lt (by omega)
  have hle : pa.toNat / 512 * 512 ≤ ((pa + count).toNat + 511) / 512 * 512 := by omega
  obtain ⟨s, hrun, ⟨k, hat⟩, hstop⟩ := whileLoop_keeps (Reading.Going (pa + count))
    (fun s => some (s.turn disk))
    (fun s => ∃ k, s.At disk v (pa.toNat / 512 * 512) (offset.toNat / 512)
      (((pa + count).toNat + 511) / 512 * 512) k) (fun s => left s.pa)
    (fun a ⟨k, hat⟩ hgo => by
      obtain ⟨hat', hlt⟩ := hat.turn hgo rfl (by omega) (by omega) (by omega)
      exact ⟨_, rfl, ⟨k + 1, hat'⟩, hlt⟩)
    ⟨0, Reading.start_at hle⟩ (left_lt _ hfuel)
  have hge : ¬ s.pa.toNat < (pa + count).toNat := fun h => hstop (BitVec.lt_def.mpr h)
  have hpa := hat.pa
  have hhi := hat.le
  rw [hfin] at hge hhi
  have hsame : pa.toNat / 512 * 512 + 512 * k = (pa.toNat + count.toNat + 511) / 512 * 512 := by
    omega
  refine (congrArg (Option.map Reading.v) hrun).trans (congrArg some ?_)
  funext x
  rw [hat.memory]
  unfold sectorsRead Segment.sectors
  rw [hsame]

/-- The scratch page has the first page of the image. -/
def Scratch (disk : Disk) (v : Bytes.Memory) : Prop :=
  ∀ i, i < 4096 → v (0x10000 + i) = disk.image i

/-- Program header `ph` is the one of the segment, as long as the scratch page has the
image. -/
structure Describes (disk : Disk) (ph : U32) (s : Segment) : Prop where
  pa : ∀ v, Scratch disk v → (pPa v ph).toNat = s.pa
  memsz : ∀ v, Scratch disk v → (pMemsz v ph).toNat = s.memsz
  filesz : ∀ v, Scratch disk v → (pFilesz v ph).toNat = s.filesz
  offset : ∀ v, Scratch disk v → (pOffset v ph).toNat = s.offset

/-- A word of the scratch page is one of the image. -/
theorem Scratch.word {i : Nat} (h : Scratch disk v) (hi : i + 4 ≤ 4096) :
    word v (0x10000 + i) = disk.word i := by
  refine word_shift (fun k hk => ?_)
  rw [Nat.add_assoc]
  exact h (i + k) (by omega)

theorem describes {i : Nat} (hph : ph.toNat = 0x10000 + ((disk.word 28).toNat + 32 * i))
    (hin : (disk.word 28).toNat + 32 * i + 32 ≤ 4096) : Describes disk ph (disk.segment i) := by
  have hword : ∀ j, j < 29 → ∀ v, Scratch disk v →
      word v (ph.toNat + j) = disk.word ((disk.word 28).toNat + 32 * i + j) := by
    intro j hj v hv
    rw [hph, Nat.add_assoc]
    exact hv.word (by omega)
  exact ⟨fun v hv => congrArg BitVec.toNat (hword 12 (by omega) v hv),
    fun v hv => congrArg BitVec.toNat (hword 20 (by omega) v hv),
    fun v hv => congrArg BitVec.toNat (hword 16 (by omega) v hv),
    fun v hv => congrArg BitVec.toNat (hword 4 (by omega) v hv)⟩

/-- The memory when `n` bytes have been cleared. -/
def cleared (lo n : Nat) (v : Bytes.Memory) : Bytes.Memory := fun x =>
  if lo ≤ x ∧ x < lo + n then 0#8 else v x

theorem Scratch.cleared {lo n : Nat} (h : Scratch disk v)
    (hout : ∀ x, lo ≤ x → x < lo + n → x < 0x10000 ∨ 0x11000 ≤ x) :
    Scratch disk (cleared lo n v) := by
  intro i hi
  unfold Loader.cleared
  by_cases hin : lo ≤ 0x10000 + i ∧ 0x10000 + i < lo + n
  · have := hout _ hin.1 hin.2
    omega
  · rw [if_neg hin]
    exact h i hi

/-- One byte more. -/
theorem update_cleared {lo n : Nat} :
    Function.update (cleared lo n v) (lo + n) 0#8 = cleared lo (n + 1) v := by
  funext x
  unfold cleared
  by_cases hx : x = lo + n
  · subst hx
    rw [Function.update_self, if_pos (by omega)]
  · rw [Function.update_of_ne hx]
    by_cases hin : lo ≤ x ∧ x < lo + n
    · rw [if_pos hin, if_pos (by omega)]
    · rw [if_neg hin, if_neg (by omega)]

/-- In the loop that clears, some bytes have been cleared. -/
structure Clearing.At (lo : Nat) (v : Bytes.Memory) (n k : Nat) (c : Clearing) : Prop where
  i : c.i.toNat = k
  le : k ≤ n
  memory : c.v = cleared lo k v

/-- The length in the condition of the loop. -/
theorem Describes.rest (h : Describes disk ph s) (hv : Scratch disk v)
    (hle : s.filesz ≤ s.memsz) :
    (pMemsz v ph - pFilesz v ph).toNat = s.memsz - s.filesz := by
  have hmemsz := h.memsz v hv
  have hfilesz := h.filesz v hv
  rw [BitVec.toNat_sub_of_le (BitVec.le_def.mpr (by omega)), hmemsz, hfilesz]

/-- The address in the loop. -/
theorem Describes.place {i : U32} {k : Nat} (h : Describes disk ph s) (hv : Scratch disk v)
    (hi : i.toNat = k) (hbelow : s.pa + s.filesz + k < 2 ^ 32) :
    (pPa v ph + pFilesz v ph + i).toNat = s.pa + s.filesz + k := by
  rw [BitVec.toNat_add, BitVec.toNat_add, h.pa v hv, h.filesz v hv, hi,
    Nat.mod_eq_of_lt (Nat.lt_of_le_of_lt (Nat.le_add_right _ k) hbelow)]
  exact Nat.mod_eq_of_lt hbelow

/-- One turn clears one byte. -/
theorem Clearing.At.turn {k : Nat} {c : Clearing}
    (hat : c.At (s.pa + s.filesz) v (s.memsz - s.filesz) k)
    (h : Describes disk ph s) (hc : Scratch disk c.v) (hle : s.filesz ≤ s.memsz)
    (hbelow : s.pa + s.memsz < 2 ^ 32 - 512) (hgo : c.Going ph) :
    (c.turn ph).At (s.pa + s.filesz) v (s.memsz - s.filesz) (k + 1) ∧
      left (c.turn ph).i < left c.i := by
  have hlt : c.i.toNat < (pMemsz c.v ph - pFilesz c.v ph).toNat := BitVec.lt_def.mp hgo
  rw [h.rest hc hle, hat.i] at hlt
  have hi := hat.i
  have hnext : (c.turn ph).i.toNat = k + 1 := by
    have hadd : (c.turn ph).i.toNat = (c.i.toNat + 1) % 2 ^ 32 := BitVec.toNat_add c.i 1#32
    rw [hadd, hi]
    exact Nat.mod_eq_of_lt (by omega)
  refine ⟨⟨hnext, hlt, ?_⟩, ?_⟩
  · change Function.update c.v (pPa c.v ph + pFilesz c.v ph + c.i).toNat 0#8 = _
    rw [h.place hc hi (by omega), hat.memory, update_cleared]
  · exact left_decreases (by omega)

/-- `bootmain` clears the rest of a segment. -/
theorem clearRest_eq (h : Describes disk ph s) (hv : Scratch disk v) (hle : s.filesz ≤ s.memsz)
    (hbelow : s.pa + s.memsz < 2 ^ 32 - 512)
    (hout : ∀ x, s.Has x → x < 0x10000 ∨ 0x11000 ≤ x) (hfuel : 2 ^ 32 < fuel) :
    clearRest fuel ph v = some (cleared (s.pa + s.filesz) (s.memsz - s.filesz) v) := by
  -- what has been cleared is a part of the segment, so the header is as it was
  have hscratch : ∀ k, k ≤ s.memsz - s.filesz →
      Scratch disk (cleared (s.pa + s.filesz) k v) := by
    intro k hk
    refine hv.cleared (fun x hlo hhi => hout x ?_)
    unfold Segment.Has
    omega
  obtain ⟨c, hrun, ⟨k, hat⟩, hstop⟩ := whileLoop_keeps (Clearing.Going ph)
    (fun c => some (c.turn ph))
    (fun c => ∃ k, c.At (s.pa + s.filesz) v (s.memsz - s.filesz) k) (fun c => left c.i)
    (fun a ⟨k, hat⟩ hgo => by
      have ha : Scratch disk a.v := by
        rw [hat.memory]
        exact hscratch k hat.le
      obtain ⟨hat', hlt⟩ := hat.turn h ha hle hbelow hgo
      exact ⟨_, rfl, ⟨k + 1, hat'⟩, hlt⟩)
    (s := ⟨0#32, v⟩)
    ⟨0, rfl, Nat.zero_le _, by
      funext x
      unfold cleared
      rw [if_neg (by omega)]⟩
    (left_lt _ hfuel)
  have hc : Scratch disk c.v := by
    rw [hat.memory]
    exact hscratch k hat.le
  have hge : ¬ c.i.toNat < (pMemsz c.v ph - pFilesz c.v ph).toNat :=
    fun hlt => hstop (BitVec.lt_def.mpr hlt)
  rw [h.rest hc hle, hat.i] at hge
  have hk : k = s.memsz - s.filesz := Nat.le_antisymm hat.le (Nat.le_of_not_lt hge)
  refine (congrArg (Option.map Clearing.v) hrun).trans (congrArg some ?_)
  rw [hat.memory, hk]

/-- `bootmain` loads one segment. -/
theorem loadSegment_eq (h : Describes disk ph s) (hv : Scratch disk v) (hle : s.filesz ≤ s.memsz)
    (hbelow : s.pa + s.memsz < 2 ^ 32 - 512)
    (hout : ∀ x, s.Has x → x < 0x10000 ∨ 0x11000 ≤ x)
    (hkept : ∀ i, i < 4096 → s.Covers (0x10000 + i) →
      disk.image (s.offset / 512 * 512 + (0x10000 + i - s.pa / 512 * 512)) = disk.image i)
    (hfuel : 2 ^ 32 < fuel) :
    loadSegment disk fuel ph v = some (s.load disk v) ∧ Scratch disk (s.load disk v) := by
  have hpa := h.pa v hv
  have hmemsz := h.memsz v hv
  have hoffset := h.offset v hv
  have hread : readseg disk fuel (pPa v ph) (pMemsz v ph) (pOffset v ph) v = _ :=
    readseg_eq (by omega) hfuel
  rw [hpa, hmemsz, hoffset] at hread
  have hscratch : Scratch disk (s.sectors disk v) := by
    intro i hi
    unfold Segment.sectors
    by_cases hx : s.Covers (0x10000 + i)
    · exact (if_pos hx).trans (hkept i hi hx)
    · exact (if_neg hx).trans (hv i hi)
  have hclear := clearRest_eq h hscratch hle hbelow hout hfuel
  have hload : cleared (s.pa + s.filesz) (s.memsz - s.filesz) (s.sectors disk v) =
      s.load disk v := by
    funext x
    unfold cleared Segment.load Segment.sectors
    rw [Nat.add_assoc, Nat.add_sub_cancel' hle]
  refine ⟨?_, ?_⟩
  · unfold loadSegment
    refine (congrArg (fun r => Option.bind r (clearRest fuel ph)) hread).trans ?_
    exact hclear.trans (congrArg some hload)
  · rw [← hload]
    refine hscratch.cleared (fun x hlo hhi => hout x ?_)
    unfold Segment.Has
    omega

/-- In the loop over the program headers, some segments have been loaded. -/
structure Headers.At (disk : Disk) (v : Bytes.Memory) (j : Nat) (c : Headers) : Prop where
  ph : c.ph.toNat = 0x10000 + ((disk.word 28).toNat + 32 * j)
  le : j ≤ disk.phnum
  memory : c.v = ((List.range j).map disk.segment).foldl (Segment.load disk) v
  scratch : Scratch disk c.v

/-- One turn loads one segment. -/
theorem Headers.At.turn {j : Nat} {c : Headers} {eph : U32} (hat : c.At disk v j)
    (h : KernelImage disk) (hkept : HeadersKept disk)
    (heph : eph.toNat = 0x10000 + ((disk.word 28).toNat + 32 * disk.phnum))
    (hgo : c.Going eph) (hfuel : 2 ^ 32 < fuel) :
    ∃ c', c.turn disk fuel = some c' ∧ c'.At disk v (j + 1) ∧ left c'.ph < left c.ph := by
  have hlt : c.ph.toNat < eph.toNat := BitVec.lt_def.mp hgo
  have hph := hat.ph
  have hheaders := h.headers
  have hj : j < disk.phnum := by omega
  have hmem : disk.segment j ∈ disk.segments :=
    List.mem_map.mpr ⟨j, List.mem_range.mpr hj, rfl⟩
  obtain ⟨hload, hscratch⟩ := loadSegment_eq (describes hph (by omega)) hat.scratch
    (h.filesz _ hmem) (h.below _ hmem) (h.scratch _ hmem) (hkept _ hmem) hfuel
  have hnext : (c.ph + 32#32).toNat = c.ph.toNat + 32 := by
    have hadd : (c.ph + 32#32).toNat = (c.ph.toNat + 32) % 2 ^ 32 := BitVec.toNat_add c.ph 32#32
    rw [hadd]
    exact Nat.mod_eq_of_lt (by omega)
  refine ⟨⟨c.ph + 32#32, (disk.segment j).load disk c.v⟩, ?_, ⟨?_, hj, ?_, hscratch⟩, ?_⟩
  · unfold Headers.turn
    rw [hload]
    rfl
  · rw [hnext, hph]
    omega
  · rw [List.range_succ, List.map_append, List.foldl_append, ← hat.memory]
    rfl
  · exact left_decreases (show c.ph.toNat < (c.ph + 32#32).toNat by omega)

/-- The loop over the program headers loads all segments. -/
theorem headers_run {ph₀ eph : U32} (h : KernelImage disk) (hkept : HeadersKept disk)
    (hv : Scratch disk v) (hph : ph₀.toNat = 0x10000 + (disk.word 28).toNat)
    (heph : eph.toNat = 0x10000 + ((disk.word 28).toNat + 32 * disk.phnum))
    (hfuel : 2 ^ 32 < fuel) :
    ∃ c, whileLoop (Headers.Going eph) (Headers.turn disk fuel) fuel ⟨ph₀, v⟩ = some c ∧
      c.v = disk.segments.foldl (Segment.load disk) v := by
  obtain ⟨c, hrun, ⟨j, hat⟩, hstop⟩ := whileLoop_keeps (Headers.Going eph)
    (Headers.turn disk fuel) (fun c => ∃ j, c.At disk v j) (fun c => left c.ph)
    (fun a ⟨j, hat⟩ hgo => by
      obtain ⟨c', hturn, hat', hlt⟩ := hat.turn h hkept heph hgo hfuel
      exact ⟨c', hturn, ⟨j + 1, hat'⟩, hlt⟩)
    (s := ⟨ph₀, v⟩) ⟨0, hph, Nat.zero_le _, rfl, hv⟩ (left_lt _ hfuel)
  have hge : ¬ c.ph.toNat < eph.toNat := fun hlt => hstop (BitVec.lt_def.mpr hlt)
  have hle := hat.le
  have hph := hat.ph
  have hj : j = disk.phnum := by omega
  refine ⟨c, hrun, ?_⟩
  rw [hat.memory, hj]
  rfl

/-- The first page of the image comes to the scratch page. -/
theorem scratch_sectors (disk : Disk) (v : Bytes.Memory) :
    Scratch disk
      (Segment.sectors disk v { pa := 65536, memsz := 4096, filesz := 0, offset := 0 }) := by
  intro i hi
  unfold Segment.sectors
  dsimp only
  rw [if_pos (by omega)]
  exact congrArg disk.image (by omega)

/-- The first program header, and the place behind the last. -/
theorem headers_place (h : KernelImage disk) (hv : Scratch disk v) :
    (elfhdr + ePhoff v).toNat = 0x10000 + (disk.word 28).toNat ∧
      (elfhdr + ePhoff v + ePhnum v * 32#32).toNat =
        0x10000 + ((disk.word 28).toNat + 32 * disk.phnum) := by
  have hheaders := h.headers
  have hphoff : ePhoff v = disk.word 28 := hv.word (by omega)
  have hphnum : (ePhnum v).toNat = disk.phnum :=
    congrArg (fun w => (w &&& 0xFFFF#32).toNat) (hv.word (i := 44) (by omega))
  have hfirst : (elfhdr + ePhoff v).toNat = 0x10000 + (disk.word 28).toNat := by
    have hadd : (elfhdr + ePhoff v).toNat = (0x10000 + (ePhoff v).toNat) % 2 ^ 32 :=
      BitVec.toNat_add elfhdr (ePhoff v)
    rw [hadd, hphoff]
    exact Nat.mod_eq_of_lt (by omega)
  have hmul : (ePhnum v * 32#32).toNat = 32 * disk.phnum := by
    have hmul : (ePhnum v * 32#32).toNat = (ePhnum v).toNat * 32 % 2 ^ 32 :=
      BitVec.toNat_mul (ePhnum v) 32#32
    rw [hmul, hphnum, Nat.mul_comm]
    exact Nat.mod_eq_of_lt (by omega)
  refine ⟨hfirst, ?_⟩
  rw [BitVec.toNat_add, hfirst, hmul, Nat.add_assoc]
  exact Nat.mod_eq_of_lt (by omega)

/-- `bootmain` has loaded the segments, one after another, when it jumps. -/
theorem bootmain_run (h : KernelImage disk) (hkept : HeadersKept disk) (v : Bytes.Memory)
    (hfuel : 2 ^ 32 < fuel) :
    ∃ entry v', bootmain disk fuel v =
      some (.jump entry (disk.segments.foldl (Segment.load disk) v')) := by
  have hread : readseg disk fuel elfhdr (sectsize * 8#32) 0#32 v = _ :=
    readseg_eq (by decide) hfuel
  have hscratch := scratch_sectors disk v
  generalize hv' : Segment.sectors disk v { pa := 65536, memsz := 4096, filesz := 0, offset := 0 } =
    v' at hscratch
  have hread' : readseg disk fuel elfhdr (sectsize * 8#32) 0#32 v = some v' := by
    rw [hread, ← hv']
    rfl
  have hmagic : eMagic v' = elfMagic := by
    refine Eq.trans ?_ h.magic
    exact hscratch.word (i := 0) (by omega)
  obtain ⟨hph, heph⟩ := headers_place h hscratch
  obtain ⟨c, hrun, hc⟩ := headers_run h hkept hscratch hph heph hfuel
  refine ⟨eEntry c.v, v', ?_⟩
  unfold bootmain
  rw [hread', ← hc]
  simp only [Option.bind_eq_bind, Option.bind_some, hmagic, ne_eq, not_true_eq_false, if_false,
    hrun]

/-- When `bootmain` jumps to the kernel, every segment is in memory exactly if what is
read in front of and behind later segments is the same. -/
theorem bootmain_loads (h : KernelImage disk) (hkept : HeadersKept disk) (v : Bytes.Memory)
    (hfuel : 2 ^ 32 < fuel) :
    ∃ entry v', bootmain disk fuel v = some (.jump entry v') ∧
      (Loaded disk v' ↔ Harmless disk) := by
  obtain ⟨entry, v', hrun⟩ := bootmain_run h hkept v hfuel
  exact ⟨entry, _, hrun, loaded_iff h v'⟩

/-- An image of two segments of 16 bytes, of ones and of zeros; the second is at byte 16 of
its sector. -/
def twoSegments (pa : U32) : Disk := fun i =>
  let header : List U32 :=
    [elfMagic, 0, 0, 0, 0, 0, 0x100000, 52, 0, 0, 0, 2, 0,
      1, 0x1000, 0, 0x100000, 16, 16, 0, 0,
      1, 0x2010, 0, pa, 16, 16, 0, 0]
  if i < 512 then 0#8
  else if i < 512 + 0x1000 then byteOf (header.getD ((i - 512) / 4) 0) (i % 4)
  else if i < 512 + 0x1200 then 1#8
  else 0#8

theorem twoSegments_image {pa : U32} {p : Nat} (hp : 0x100010 ≤ p ∧ p < 0x200000)
    (hcong : p % 512 = 16) (hmagic : (twoSegments pa).word 0 = elfMagic)
    (hheaders : ((twoSegments pa).word 28).toNat + 32 * (twoSegments pa).phnum ≤ 4096)
    (hsegments : (twoSegments pa).segments =
      [⟨0x100000, 16, 16, 0x1000⟩, ⟨p, 16, 16, 0x2010⟩]) :
    KernelImage (twoSegments pa) := by
  obtain ⟨hlo, hhi⟩ := hp
  refine ⟨hmagic, hheaders, ?_, ?_, ?_, ?_, ?_, ?_⟩ <;> rw [hsegments]
  · simp only [List.pairwise_cons, List.mem_singleton, forall_eq, List.not_mem_nil,
      false_implies, implies_true, List.Pairwise.nil, and_true]
    omega
  · simp only [List.pairwise_cons, List.mem_singleton, forall_eq, List.not_mem_nil,
      false_implies, implies_true, List.Pairwise.nil, and_true, Segment.Has]
    omega
  · simp only [List.mem_cons, List.not_mem_nil, or_false, forall_eq_or_imp, forall_eq, Segment.Has]
    exact ⟨fun x hx => by omega, fun x hx => by omega⟩
  · simp only [List.mem_cons, List.not_mem_nil, or_false, forall_eq_or_imp, forall_eq]
    omega
  · simp only [List.mem_cons, List.not_mem_nil, or_false, forall_eq_or_imp, forall_eq]
    omega
  · simp only [List.mem_cons, List.not_mem_nil, or_false, forall_eq_or_imp, forall_eq, true_and]
    omega

/-- No sector of the two segments is read into the scratch page. -/
theorem twoSegments_kept {pa : U32} {p : Nat} (hp : 0x100010 ≤ p)
    (hsegments : (twoSegments pa).segments =
      [⟨0x100000, 16, 16, 0x1000⟩, ⟨p, 16, 16, 0x2010⟩]) :
    HeadersKept (twoSegments pa) := by
  unfold HeadersKept Segment.Covers
  rw [hsegments]
  simp only [List.mem_cons, List.not_mem_nil, or_false]
  rintro s (rfl | rfl) i hi hcovers
  · dsimp only at hcovers
    omega
  · dsimp only at hcovers
    omega

/-- In the image with the second segment in the next sector, it does no harm. -/
theorem twoSegments_harmless {pa : U32} {p : Nat} (hp : 0x100200 ≤ p)
    (hsegments : (twoSegments pa).segments =
      [⟨0x100000, 16, 16, 0x1000⟩, ⟨p, 16, 16, 0x2010⟩]) :
    Harmless (twoSegments pa) := by
  intro a s b t c heq k hk hcovers hlast
  rw [hsegments] at heq
  have hlength := congrArg List.length heq
  simp only [List.length_cons, List.length_append, List.length_nil] at hlength
  obtain rfl : a = [] := List.eq_nil_of_length_eq_zero (by omega)
  obtain rfl : b = [] := List.eq_nil_of_length_eq_zero (by omega)
  simp only [List.nil_append, List.cons.injEq] at heq
  obtain ⟨rfl, rfl, -⟩ := heq
  unfold Segment.Covers at hcovers
  dsimp only at hk hcovers
  omega

/-- The second segment starts in the next sector. -/
theorem twoSegments_next : (twoSegments 0x100210).segments =
    [⟨0x100000, 16, 16, 0x1000⟩, ⟨0x100210, 16, 16, 0x2010⟩] := by decide +kernel

/-- The second segment starts where the first ends. -/
theorem twoSegments_same : (twoSegments 0x100010).segments =
    [⟨0x100000, 16, 16, 0x1000⟩, ⟨0x100010, 16, 16, 0x2010⟩] := by decide +kernel

/-- With the second segment in the next sector, both are loaded. -/
theorem bootmain_loads_apart : ∃ entry v',
    bootmain (twoSegments 0x100210) (2 ^ 32 + 1) (fun _ => 0#8) = some (.jump entry v') ∧
      Loaded (twoSegments 0x100210) v' := by
  have himage : KernelImage (twoSegments 0x100210) :=
    twoSegments_image (by omega) (by omega) (by decide +kernel) (by decide +kernel)
      twoSegments_next
  obtain ⟨entry, v', hrun, hloaded⟩ := bootmain_loads himage
    (twoSegments_kept (by omega) twoSegments_next) (fun _ => 0#8) (Nat.lt_succ_self (2 ^ 32))
  exact ⟨entry, v', hrun, hloaded.mpr (twoSegments_harmless (by omega) twoSegments_next)⟩

/-- With both in one sector, the first is not. -/
theorem bootmain_overwrites : ¬ ∀ disk, KernelImage disk → ∀ fuel, 2 ^ 32 < fuel →
    ∀ v entry v', bootmain disk fuel v = some (.jump entry v') → Loaded disk v' := by
  intro hall
  have himage : KernelImage (twoSegments 0x100010) :=
    twoSegments_image (by omega) (by omega) (by decide +kernel) (by decide +kernel)
      twoSegments_same
  obtain ⟨entry, v', hrun⟩ := bootmain_run himage (twoSegments_kept (by omega) twoSegments_same)
    (fun _ => 0#8) (Nat.lt_succ_self (2 ^ 32))
  have hloaded := (loaded_iff himage v').mp (hall _ himage _ (Nat.lt_succ_self _) _ _ _ hrun)
  have hcovers : Segment.Covers ⟨0x100010, 16, 16, 0x2010⟩ (0x100000 + 0) := by decide
  have hbyte := hloaded [] ⟨0x100000, 16, 16, 0x1000⟩ [] ⟨0x100010, 16, 16, 0x2010⟩ []
    twoSegments_same 0 (by decide) hcovers
    (fun t ht => absurd ht List.not_mem_nil)
  exact absurd hbyte (by decide +kernel)

end Runs

end Loader

end Jos

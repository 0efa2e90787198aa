import Jos.Lib.Bytes
import Jos.Lib.Keeps
import Jos.Mmu

/-!
# `fs/bc.c`: the block cache

The disk is mapped into the memory of the file server from `DISKMAP` on.  A block
is read in when it is first touched, and written back by `flush_block` if a store
has set the dirty bit of its page since.

`Store.view` is what the program sees: reading a block in and writing it back do
not change it.  Only memory in the disk map can be missing; there is always memory
for a block that is read in, and the disk does not fail.

The trace says what the file system did at the places that matter, and with what
in memory and on disk.
-/

namespace Jos

open Programs Bytes

/-- `DISKMAP`. -/
def diskmap : Nat := 0x10000000

/-- `DISKSIZE`. -/
def disksize : Nat := 0xC0000000

/-- `BLKSIZE`. -/
def blksize : Nat := 4096

/-- The super block, which `super` points to once it is set. -/
def superVa : Nat := diskmap + blksize

/-- `&super->s_nblocks`. -/
def snblocksVa : Nat := superVa + 4

/-- `&bitmap[blockno / 32]`. -/
def bitmapVa (blockno : Nat) : Nat := diskmap + 2 * blksize + 4 * (blockno / 32)

/-- An address in the disk map. -/
abbrev InDisk (va : Nat) : Prop := diskmap ≤ va ∧ va < diskmap + disksize

/-- The block of an address in the disk map. -/
def blockOf (va : Nat) : Nat := (va - diskmap) / blksize

/-- The memory of the file server, the disk, and of each block whether it is in
memory (`va_is_mapped`) and whether it was written since (`va_is_dirty`). -/
structure Store where
  mem : Bytes.Memory
  disk : Bytes.Memory
  mapped : Nat → Bool
  dirty : Nat → Bool

/-- What the file system does, or is about to do. -/
inductive FsNote where
  /-- `file_get_block` takes block `bn` for index `i` of file `f`. -/
  | took (f i bn : Nat)
  /-- `file_block_walk` takes block `bn` for the indirect block of `f`. -/
  | tookIndirect (f bn : Nat)
  /-- `file_free_block` or `file_truncate_blocks` clears a slot of `f`. -/
  | cleared (f slot : Nat)
  /-- `file_set_size` or `dir_alloc_file` sets the size of `f`. -/
  | resized (f : Nat) (size : U32)
  /-- `dir_alloc_file` hands out `f`. -/
  | entry (dir f : Nat)
  /-- `file_read` or `file_write` copies `n` bytes of file `f`. -/
  | copied (f dst src n : Nat)
  /-- `flush_block` has written a block to disk. -/
  | flushed (bn : Nat)

/-- The store, and what was done, the last first. -/
structure Fs extends Store where
  trace : List (FsNote × Store)

abbrev FsProg : Type → Type := Prog Fs

/-- Block `b` is marked free in the bitmap. -/
def Free (v : Bytes.Memory) (b : Nat) : Prop :=
  b < (word v snblocksVa).toNat ∧ (word v (bitmapVa b)).getLsbD (b % 32) = true

instance (v : Bytes.Memory) (b : Nat) : Decidable (Free v b) :=
  inferInstanceAs (Decidable (_ ∧ _))

namespace Store

variable (s : Store)

/-- The memory that the program sees. -/
def view : Bytes.Memory := fun va =>
  if InDisk va ∧ s.mapped (blockOf va) = false then s.disk (va - diskmap) else s.mem va

/-- Block `b` is read from the disk, and its dirty bit is clear. -/
def pageIn (b : Nat) : Store where
  mem := fun va => if InDisk va ∧ blockOf va = b then s.disk (va - diskmap) else s.mem va
  disk := s.disk
  mapped := Function.update s.mapped b true
  dirty := Function.update s.dirty b false

/-- Block `b` is written to the disk. -/
def writeBack (b : Nat) : Store where
  mem := s.mem
  disk := fun x => if x / blksize = b then s.mem (diskmap + x) else s.disk x
  mapped := s.mapped
  dirty := Function.update s.dirty b false

/-- Bytes from `dst` to `dst + n` are written. -/
def write (v : Bytes.Memory) (dst n : Nat) : Store where
  mem := v
  disk := s.disk
  mapped := s.mapped
  dirty := fun b => s.dirty b ||
    decide (0 < n ∧ dst < diskmap + (b + 1) * blksize ∧ diskmap + b * blksize < dst + n)

end Store

namespace Fs

/-- What happens, is done in this state. -/
def note (n : FsNote) : FsProg Unit :=
  Prog.modify (fun s => { s with trace := (n, s.toStore) :: s.trace })

def change (f : Store → Store) : FsProg Unit :=
  Prog.modify (fun s => { s with toStore := f s.toStore })

/-- `block_is_free`, with a way to read words. -/
def isFree (read : Nat → FsProg U32) (b : Nat) : FsProg Bool := do
  let nblocks ← read snblocksVa
  if nblocks.toNat ≤ b then pure false
  else do
    let w ← read (bitmapVa b)
    pure (w.getLsbD (b % 32))

/-- `bc_pgfault` for block `b`. -/
def pgfault (read : Nat → FsProg U32) (b : Nat) : FsProg Unit := do
  let nblocks ← read snblocksVa
  Prog.when (nblocks.toNat ≤ b) Prog.stop
  change (fun s => s.pageIn b)
  let free ← isFree read b
  Prog.when (free = true) Prog.stop

/-- Load a word, with faults that nest `n` times. -/
def loadNested : Nat → Nat → FsProg U32
  | 0, va => do
      let s ← Prog.get
      Prog.when (s.mapped (blockOf va) = false) Prog.stop
      pure (word s.mem va)
  | n + 1, va => do
      let s ← Prog.get
      Prog.when (s.mapped (blockOf va) = false) (pgfault (loadNested n) (blockOf va))
      let s ← Prog.get
      pure (word s.mem va)

/-- A fault is handled within two more: the super block and the first block of the
bitmap are in memory since `fs_init`. -/
def bcPgfault (b : Nat) : FsProg Unit := pgfault (loadNested 1) b

/-- Make sure that an address can be used. -/
def touch (va : Nat) : FsProg Unit := do
  let s ← Prog.get
  Prog.when (InDisk va ∧ s.mapped (blockOf va) = false) (bcPgfault (blockOf va))

def loadByte (va : Nat) : FsProg U8 := do
  touch va
  let s ← Prog.get
  pure (s.mem va)

/-- Words do not cross pages. -/
def loadWord (va : Nat) : FsProg U32 := do
  touch va
  let s ← Prog.get
  pure (word s.mem va)

def storeByte (va : Nat) (x : U8) : FsProg Unit := do
  touch va
  change (fun s => s.write (Function.update s.mem va x) va 1)

def storeWord (va : Nat) (w : U32) : FsProg Unit := do
  touch va
  change (fun s => s.write (setWord s.mem va w) va 4)

/-- Touch every page of a range of addresses. -/
def touchRange (va n : Nat) : FsProg Unit :=
  Prog.when (0 < n) (Prog.forRange (va / blksize) ((va + n - 1) / blksize + 1 - va / blksize)
    (fun p => touch (p * blksize)))

/-- `memmove`. -/
def memmove (dst src n : Nat) : FsProg Unit := do
  touchRange src n
  touchRange dst n
  change (fun s => s.write (move s.mem dst src n) dst n)

/-- `diskaddr`. -/
def diskaddr (blockno : Nat) : FsProg Nat := do
  let nblocks ← loadWord snblocksVa
  Prog.when (blockno = 0 ∨ nblocks.toNat ≤ blockno) Prog.stop
  pure (diskmap + blockno * blksize)

/-- `flush_block`. -/
def flushBlock (va : Nat) : FsProg Unit := do
  Prog.when (¬ InDisk va) Prog.stop
  let s ← Prog.get
  Prog.when (s.mapped (blockOf va) = true ∧ s.dirty (blockOf va) = true) do
    change (fun s => s.writeBack (blockOf va))
    note (.flushed (blockOf va))

end Fs

/-! ## Loads -/

section Loads

variable {s s' s'' : Fs} {b va : Nat}

/-- Blocks may be read in; what the program sees stays. -/
structure Loads (s s' : Fs) : Prop where
  view : s'.view = s.view
  disk : s'.disk = s.disk
  mapped : ∀ b, s.mapped b = true → s'.mapped b = true
  dirty : ∀ b, s.mapped b = true → s'.dirty b = s.dirty b
  clean : ∀ b, s.mapped b = false → s'.mapped b = true → s'.dirty b = false
  trace : s'.trace = s.trace

theorem Loads.refl : Loads s s where
  view := rfl
  disk := rfl
  mapped := fun _ h => h
  dirty := fun _ _ => rfl
  clean := fun b h h' => by simp [h] at h'
  trace := rfl

theorem Loads.trans (h : Loads s s') (h' : Loads s' s'') : Loads s s'' where
  view := h'.view.trans h.view
  disk := h'.disk.trans h.disk
  mapped := fun b hb => h'.mapped b (h.mapped b hb)
  dirty := fun b hb => (h'.dirty b (h.mapped b hb)).trans (h.dirty b hb)
  clean := fun b hb hb'' => by
    cases hb' : s'.mapped b with
    | true => exact (h'.dirty b hb').trans (h.clean b hb hb')
    | false => exact h'.clean b hb' hb''
  trace := h'.trace.trans h.trace

/-- A program that returns `w` and reads blocks in, or stops. -/
abbrev LoadPost {α : Type} (s : Fs) (R : α → Fs → Prop) : Post Fs α :=
  ⟨fun a s' => Loads s s' ∧ R a s', fun _ => False, fun s' => Loads s s'⟩

theorem view_of_mapped (h : InDisk va → s.mapped (blockOf va) = true) :
    s.view va = s.mem va := by
  unfold Store.view
  refine if_neg (fun hno => ?_)
  have hmapped := h hno.1
  simp [hno.2] at hmapped

/-- A word lies in one block. -/
theorem blockOf_word {x : Nat} (hva : va % 4 = 0) (hle : va ≤ x) (hlt : x < va + 4) :
    blockOf x = blockOf va ∧ (InDisk x ↔ InDisk va) := by
  unfold blockOf InDisk diskmap disksize blksize
  omega

theorem word_view_of_mapped (h : InDisk va → s.mapped (blockOf va) = true)
    (hva : va % 4 = 0) : word s.mem va = word s.view va := by
  refine word_congr (fun x hle hlt => (view_of_mapped ?_).symm)
  obtain ⟨hblock, hdisk⟩ := blockOf_word hva hle hlt
  rw [hblock, hdisk]
  exact h

/-- Reading a block in does not change what the program sees. -/
theorem pageIn_loads (h : s.mapped b = false) :
    Loads s { s with toStore := s.pageIn b } where
  view := by
    funext va
    unfold Store.view Store.pageIn
    by_cases hb : blockOf va = b
    · subst hb
      by_cases hdisk : InDisk va
      · simp [h]
      · simp [hdisk]
    · simp [hb]
  disk := rfl
  mapped := fun x hx => by
    have hne : x ≠ b := by
      rintro rfl
      simp [h] at hx
    exact (Function.update_of_ne hne _ _).trans hx
  dirty := fun x hx => by
    have hne : x ≠ b := by
      rintro rfl
      simp [h] at hx
    exact Function.update_of_ne hne _ _
  clean := fun x hx hx' => by
    by_cases hxb : x = b
    · subst hxb
      exact Function.update_self _ _ _
    · have hold : s.mapped x = true := (Function.update_of_ne hxb _ _).symm.trans hx'
      simp [hx] at hold
  trace := rfl

namespace Fs

/-- What is asked of a way to read words: the super block is only read if it is in
memory. -/
structure Reads (read : Nat → FsProg U32) : Prop where
  word : ∀ s va, va % 4 = 0 → InDisk va → wp (read va)
    (LoadPost s (fun w s' => w = word s.view va ∧ s'.mapped (blockOf va) = true)) s
  super : ∀ s, wp (read snblocksVa)
    ⟨fun w s' => s' = s ∧ s.mapped 1 = true ∧ w = Bytes.word s.view snblocksVa,
      fun _ => False, fun s' => s' = s⟩ s

theorem blockOf_snblocksVa : blockOf snblocksVa = 1 := by decide

theorem bitmapVa_aligned : bitmapVa b % 4 = 0 := by
  unfold bitmapVa diskmap blksize
  omega

theorem bitmapVa_inDisk (hb : b < 2 ^ 32) : InDisk (bitmapVa b) := by
  unfold bitmapVa InDisk diskmap disksize blksize
  omega

/-- `block_is_free` tells what the bitmap says. -/
theorem isFree_wp {read : Nat → FsProg U32}
    (hread : ∀ s va, va % 4 = 0 → InDisk va →
      wp (read va) (LoadPost s (fun w _ => w = Bytes.word s.view va)) s) :
    wp (isFree read b) (LoadPost s (fun r _ => r = decide (Free s.view b))) s := by
  unfold isFree
  rw [wp_bind]
  refine wp_mono (hread s _ (by decide) (by decide)) (fun w s₁ h => ?_) (fun _ h => h)
    (fun _ h => h)
  obtain ⟨hloads, rfl⟩ := h
  refine wp_ite (fun hle => ?_) (fun hlt => ?_)
  · refine ⟨hloads, ?_⟩
    exact (decide_eq_false (fun hfree => absurd hfree.1 (by omega))).symm
  · have hb : b < 2 ^ 32 := by
      have hbound := (Bytes.word s.view snblocksVa).isLt
      omega
    rw [wp_bind]
    refine wp_mono (hread s₁ _ bitmapVa_aligned (bitmapVa_inDisk hb))
      (fun w s₂ h => ?_) (fun _ h => h) (fun _ h => hloads.trans h)
    obtain ⟨hloads', rfl⟩ := h
    refine ⟨hloads.trans hloads', ?_⟩
    rw [hloads.view]
    unfold Free
    simp [Nat.lt_of_not_le hlt]

theorem Reads.words {read : Nat → FsProg U32} (hread : Reads read) (s : Fs) (va : Nat)
    (hva : va % 4 = 0) (hdisk : InDisk va) :
    wp (read va) (LoadPost s (fun w _ => w = Bytes.word s.view va)) s :=
  wp_mono (hread.word s va hva hdisk) (fun _ _ h => ⟨h.1, h.2.1⟩) (fun _ h => h)
    (fun _ h => h)

/-- A block that is read in is not free. -/
theorem pgfault_wp {read : Nat → FsProg U32} (hread : Reads read)
    (hunmapped : s.mapped b = false) : wp (pgfault read b)
    (LoadPost s (fun _ s' => s'.mapped b = true ∧ ¬ Free s.view b ∧
      b < (Bytes.word s.view snblocksVa).toNat)) s := by
  unfold pgfault
  rw [wp_bind]
  refine wp_mono (hread.super s) (fun w s₁ h => ?_) (fun _ h => h)
    (fun s₁ h => h ▸ Loads.refl)
  obtain ⟨rfl, -, rfl⟩ := h
  refine (wp_bind _ _ _).mpr (wp_when (fun _ => Loads.refl) (fun hlt => ?_))
  have hin := pageIn_loads hunmapped
  refine wp_modify_bind.mpr ((wp_bind _ _ _).mpr ?_)
  refine wp_mono (isFree_wp hread.words) (fun free s₂ h => ?_) (fun _ h => h)
    (fun _ h => hin.trans h)
  obtain ⟨hloads, hfree⟩ := h
  rw [hin.view] at hfree
  refine wp_when (fun _ => hin.trans hloads) (fun hno => ⟨hin.trans hloads, ?_, ?_, ?_⟩)
  · exact hloads.mapped b (Function.update_self _ _ _)
  · intro hf
    exact hno (hfree.trans (decide_eq_true hf))
  · omega

theorem loadNested_super (n : Nat) : ∀ s, wp (loadNested n snblocksVa)
    ⟨fun w s' => s' = s ∧ s.mapped 1 = true ∧ w = Bytes.word s.view snblocksVa,
      fun _ => False, fun s' => s' = s⟩ s := by
  have haligned : snblocksVa % 4 = 0 := by decide
  have hmem : ∀ s : Fs, s.mapped 1 = true →
      Bytes.word s.mem snblocksVa = Bytes.word s.view snblocksVa := fun s h =>
    word_view_of_mapped (fun _ => by rw [blockOf_snblocksVa, h]) haligned
  induction n with
  | zero =>
      intro s
      unfold loadNested
      rw [wp_get_bind, blockOf_snblocksVa, wp_bind]
      refine wp_when (fun _ => rfl) (fun hno => ?_)
      have hmapped : s.mapped 1 = true := by simpa using hno
      exact ⟨rfl, hmapped, hmem s hmapped⟩
  | succ n ih =>
      intro s
      unfold loadNested
      rw [wp_get_bind, blockOf_snblocksVa, wp_bind]
      refine wp_when (fun hun => ?_) (fun hno => ?_)
      · -- the fault reads the super block again, and never gets any further
        unfold pgfault
        rw [wp_bind]
        refine wp_mono (ih s) (fun w s' h => ?_) (fun _ h => h) (fun _ h => h)
        simp [hun] at h
      · have hmapped : s.mapped 1 = true := by simpa using hno
        exact ⟨rfl, hmapped, hmem s hmapped⟩

theorem loadNested_reads (n : Nat) : Reads (loadNested n) := by
  induction n with
  | zero =>
      refine ⟨fun s va hva _ => ?_, loadNested_super 0⟩
      unfold loadNested
      rw [wp_get_bind, wp_bind]
      refine wp_when (fun _ => Loads.refl) (fun hno => ?_)
      have hmapped : s.mapped (blockOf va) = true := by simpa using hno
      exact ⟨Loads.refl, word_view_of_mapped (fun _ => hmapped) hva, hmapped⟩
  | succ n ih =>
      refine ⟨fun s va hva hdisk => ?_, loadNested_super (n + 1)⟩
      unfold loadNested
      rw [wp_get_bind, wp_bind]
      refine wp_when (fun hun => ?_) (fun hno => ?_)
      · refine wp_mono (pgfault_wp ih hun) (fun _ s' h => ?_) (fun _ h => h) (fun _ h => h)
        obtain ⟨hloads, hmapped, -⟩ := h
        refine ⟨hloads, ?_, hmapped⟩
        rw [← hloads.view]
        exact word_view_of_mapped (fun _ => hmapped) hva
      · have hmapped : s.mapped (blockOf va) = true := by simpa using hno
        exact ⟨Loads.refl, word_view_of_mapped (fun _ => hmapped) hva, hmapped⟩

theorem touch_wp : wp (touch va)
    (LoadPost s (fun _ s' => InDisk va → s'.mapped (blockOf va) = true)) s := by
  unfold touch
  rw [wp_get_bind]
  refine wp_when (fun h => ?_) (fun hno => ⟨Loads.refl, fun hdisk => ?_⟩)
  · exact wp_mono (pgfault_wp (loadNested_reads 1) h.2)
      (fun _ _ h => ⟨h.1, fun _ => h.2.1⟩) (fun _ h => h) (fun _ h => h)
  · cases hm : s.mapped (blockOf va) with
    | true => rfl
    | false => exact absurd ⟨hdisk, hm⟩ hno

theorem loadByte_wp : wp (loadByte va)
    (LoadPost s (fun x s' => x = s.view va ∧ (InDisk va → s'.mapped (blockOf va) = true))) s := by
  unfold loadByte
  rw [wp_bind]
  refine wp_mono touch_wp (fun _ s' h => ?_) (fun _ h => h) (fun _ h => h)
  refine ⟨h.1, ?_, h.2⟩
  rw [← h.1.view]
  exact (view_of_mapped h.2).symm

theorem loadWord_wp (hva : va % 4 = 0) : wp (loadWord va)
    (LoadPost s (fun w s' => w = Bytes.word s.view va ∧
      (InDisk va → s'.mapped (blockOf va) = true))) s := by
  unfold loadWord
  rw [wp_bind]
  refine wp_mono touch_wp (fun _ s' h => ?_) (fun _ h => h) (fun _ h => h)
  refine ⟨h.1, ?_, h.2⟩
  rw [← h.1.view]
  exact word_view_of_mapped h.2 hva

end Fs

/-! ## Stores and flushes -/

/-- `n` bytes from `dst` on are stored, so that the program sees `v`. -/
structure Stores (s s' : Fs) (v : Bytes.Memory) (dst n : Nat) : Prop where
  view : s'.view = v
  disk : s'.disk = s.disk
  mapped : ∀ b, s.mapped b = true → s'.mapped b = true
  dirty : ∃ s₁, Loads s s₁ ∧ s'.mapped = s₁.mapped ∧ s'.dirty = fun b => s₁.dirty b ||
    decide (0 < n ∧ dst < diskmap + (b + 1) * blksize ∧ diskmap + b * blksize < dst + n)
  trace : s'.trace = s.trace

/-- A store to memory that is there. -/
theorem write_stores {s₁ : Fs} {v : Bytes.Memory} {dst n : Nat} (hloads : Loads s s₁)
    (hin : ∀ x, dst ≤ x → x < dst + n → InDisk x → s₁.mapped (blockOf x) = true)
    (hout : ∀ x, x < dst ∨ dst + n ≤ x → v x = s₁.mem x) :
    Stores s { s₁ with toStore := s₁.write v dst n }
      (fun x => if dst ≤ x ∧ x < dst + n then v x else s.view x) dst n where
  view := by
    funext x
    by_cases hx : dst ≤ x ∧ x < dst + n
    · rw [if_pos hx]
      unfold Store.view Store.write
      refine if_neg (fun hno => ?_)
      have hmapped := hin x hx.1 hx.2 hno.1
      simp [hmapped] at hno
    · rw [if_neg hx, ← hloads.view]
      unfold Store.view Store.write
      simp only
      rw [hout x (by omega)]
  disk := hloads.disk
  mapped := hloads.mapped
  dirty := ⟨s₁, hloads, rfl, rfl⟩
  trace := hloads.trace

namespace Fs

theorem storeWord_wp {w : U32} (hva : va % 4 = 0) : wp (storeWord va w)
    ⟨fun _ s' => Stores s s' (setWord s.view va w) va 4, fun _ => False,
      fun s' => Loads s s'⟩ s := by
  unfold storeWord
  rw [wp_bind]
  refine wp_mono touch_wp (fun _ s₁ h => ?_) (fun _ h => h) (fun _ h => h)
  obtain ⟨hloads, hmapped⟩ := h
  have hstores : Stores s { s₁ with toStore := s₁.write (setWord s₁.mem va w) va 4 }
      (fun x => if va ≤ x ∧ x < va + 4 then setWord s₁.mem va w x else s.view x) va 4 :=
    write_stores hloads
    (fun x hle hlt hdisk => ?_) (fun x hx => setWord_of_apart hx)
  · have hview : setWord s.view va w = fun x =>
        if va ≤ x ∧ x < va + 4 then setWord s₁.mem va w x else s.view x := by
      funext x
      unfold setWord
      by_cases hx : va ≤ x ∧ x < va + 4
      · simp [hx]
      · simp [hx]
    change Stores s _ (setWord s.view va w) va 4
    rw [hview]
    exact hstores
  · obtain ⟨hblock, hiff⟩ := blockOf_word hva hle hlt
    rw [hblock]
    exact hmapped (hiff.mp hdisk)

theorem storeByte_wp {x : U8} : wp (storeByte va x)
    ⟨fun _ s' => Stores s s' (Function.update s.view va x) va 1, fun _ => False,
      fun s' => Loads s s'⟩ s := by
  unfold storeByte
  rw [wp_bind]
  refine wp_mono touch_wp (fun _ s₁ h => ?_) (fun _ h => h) (fun _ h => h)
  obtain ⟨hloads, hmapped⟩ := h
  have hstores : Stores s { s₁ with toStore := s₁.write (Function.update s₁.mem va x) va 1 }
      (fun y => if va ≤ y ∧ y < va + 1 then Function.update s₁.mem va x y else s.view y)
      va 1 := write_stores hloads
    (fun y hle hlt hdisk => ?_) (fun y hy => update_of_apart (by omega))
  · have hview : Function.update s.view va x = fun y =>
        if va ≤ y ∧ y < va + 1 then Function.update s₁.mem va x y else s.view y := by
      funext y
      by_cases hy : y = va
      · subst hy
        simp
      · rw [Function.update_of_ne hy, if_neg (by omega)]
    change Stores s _ (Function.update s.view va x) va 1
    rw [hview]
    exact hstores
  · obtain rfl : y = va := by omega
    exact hmapped hdisk

/-- Every page of the range is there. -/
theorem touchRange_wp {n : Nat} : wp (touchRange va n)
    (LoadPost s (fun _ s' => ∀ x, va ≤ x → x < va + n → InDisk x →
      s'.mapped (blockOf x) = true)) s := by
  unfold touchRange
  refine wp_when (fun hn => ?_) (fun hn => ⟨Loads.refl, fun x hle hlt => by omega⟩)
  have hpage : ∀ x, InDisk x → blockOf (x / blksize * blksize) = blockOf x ∧
      InDisk (x / blksize * blksize) := by
    intro x hx
    unfold blockOf
    unfold InDisk diskmap disksize blksize at *
    omega
  refine wp_forRange (fun p s' => Loads s s' ∧ ∀ x, va ≤ x → x / blksize < p → InDisk x →
    s'.mapped (blockOf x) = true) _ _ (fun p s' _ _ h => ?_) (fun s' h => ?_) ?_
  · refine wp_mono touch_wp (fun _ s'' h' => ⟨h.1.trans h'.1, fun x hle hlt hdisk => ?_⟩)
      (fun _ h => h) (fun _ h' => h.1.trans h')
    by_cases hx : x / blksize < p
    · exact h'.1.mapped _ (h.2 x hle hx hdisk)
    · obtain ⟨hblock, hin⟩ := hpage x hdisk
      obtain rfl : x / blksize = p := by omega
      rw [← hblock]
      exact h'.2 hin
  · refine ⟨h.1, fun x hle hlt hdisk => h.2 x hle ?_ hdisk⟩
    unfold blksize
    unfold blksize at h
    omega
  · refine ⟨Loads.refl, fun x hle hlt => ?_⟩
    unfold blksize at hlt
    omega

theorem memmove_wp {dst src n : Nat} : wp (memmove dst src n)
    ⟨fun _ s' => Stores s s' (move s.view dst src n) dst n, fun _ => False,
      fun s' => Loads s s'⟩ s := by
  unfold memmove
  rw [wp_bind]
  refine wp_mono touchRange_wp (fun _ s₁ h => ?_) (fun _ h => h) (fun _ h => h)
  refine (wp_bind _ _ _).mpr ?_
  refine wp_mono touchRange_wp (fun _ s₂ h' => ?_) (fun _ h => h)
    (fun _ h' => h.1.trans h')
  have hloads := h.1.trans h'.1
  have hstores : Stores s { s₂ with toStore := s₂.write (move s₂.mem dst src n) dst n }
      (fun x => if dst ≤ x ∧ x < dst + n then move s₂.mem dst src n x else s.view x) dst n :=
    write_stores hloads
    h'.2 (fun x hx => move_of_apart hx)
  have hview : move s.view dst src n = fun x =>
      if dst ≤ x ∧ x < dst + n then move s₂.mem dst src n x else s.view x := by
    funext x
    unfold move
    by_cases hx : dst ≤ x ∧ x < dst + n
    · rw [if_pos hx, if_pos hx, if_pos hx, ← hloads.view]
      refine view_of_mapped (fun hdisk => ?_)
      exact h'.1.mapped _ (h.2 _ (by omega) (by omega) hdisk)
    · rw [if_neg hx, if_neg hx]
  change Stores s _ (move s.view dst src n) dst n
  rw [hview]
  exact hstores

/-- The block that the flush writes has the bytes of the memory. -/
theorem view_writeBack (hmapped : s.mapped b = true) :
    (s.writeBack b).view = s.view := by
  funext va
  unfold Store.view Store.writeBack
  by_cases hva : InDisk va ∧ s.mapped (blockOf va) = false
  · have hne : blockOf va ≠ b := by
      rintro rfl
      simp [hmapped] at hva
    have hne' : (va - diskmap) / blksize ≠ b := hne
    simp [hva, hne']
  · simp [hva]

/-- `flush_block` writes a block that was written to, or does nothing. -/
theorem flushBlock_wp : wp (flushBlock va)
    ⟨fun _ s' => InDisk va ∧
      (s' = s ∧ (s.dirty (blockOf va) = false ∨ s.mapped (blockOf va) = false) ∨
      (s.mapped (blockOf va) = true ∧ s.dirty (blockOf va) = true ∧
        s' = { s with
          toStore := s.writeBack (blockOf va)
          trace := (.flushed (blockOf va), s.writeBack (blockOf va)) :: s.trace })),
      fun _ => False, fun s' => s' = s ∧ ¬ InDisk va⟩ s := by
  unfold flushBlock
  rw [wp_bind]
  refine wp_when (fun hno => ⟨rfl, hno⟩) (fun hin => ?_)
  have hdisk : InDisk va := Decidable.not_not.mp hin
  refine (wp_get_bind).mpr (wp_when (fun h => ?_) (fun h => ⟨hdisk, Or.inl ⟨rfl, ?_⟩⟩))
  · exact ⟨hdisk, Or.inr ⟨h.1, h.2, rfl⟩⟩
  · cases hd : s.dirty (blockOf va) with
    | false => exact Or.inl rfl
    | true =>
        refine Or.inr ?_
        cases hm : s.mapped (blockOf va) with
        | false => rfl
        | true => exact absurd ⟨hm, hd⟩ h

end Fs

end Loads

end Jos

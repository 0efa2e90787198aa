import Jos.HeapBlocks

/-!
# Heap safety

A program calls `malloc` and `free` and writes to the blocks it holds; the kernel may
be out of memory at any call.  `MallocSafe` says what a call of `malloc` promises:
that it returns, and that the block lies in the heap, on mapped pages, apart from the
other blocks and from the reference counts.

Every call keeps the promise as long as no call is made in one of three states
(`MallocClear`): the size is so large that `ROUNDUP` wraps, the pointer leaves the
last page of the heap, or a reference count is at its largest value (`heap_safe`).
-/

namespace Jos

open Programs Bytes Malloc

/-! ## Runs -/

/-- The heap, and the blocks that were returned and not freed. -/
structure HeapRun where
  heap : Heap
  live : List Block

/-- What a program does with its heap. -/
inductive HeapEvent where
  | malloc (size : U32)
  | free (b : Block)
  | store (a : Nat) (x : U8)

/-- A null pointer is no block. -/
def withBlock (live : List Block) (size v : U32) : List Block :=
  if v = 0#32 then live else ⟨v, size⟩ :: live

/-- A step, unless it faults, goes on for ever or is not allowed: a program frees the
blocks it holds, and writes to them. -/
def HeapEvent.step (s : HeapRun) : HeapEvent → Option HeapRun
  | malloc size =>
      match (Malloc.malloc size).run s.heap with
      | .ret v h => some ⟨h, withBlock s.live size v⟩
      | .exit _ => none
      | .stop _ => none
  | free b =>
      if b ∈ s.live then
        match (Malloc.free b.addr).run s.heap with
        | .ret _ h => some ⟨h, s.live.erase b⟩
        | .exit _ => none
        | .stop _ => none
      else none
  | store a x =>
      if s.live.any (fun b => decide (b.Has a)) then
        some ⟨{ s.heap with mem := Function.update s.heap.mem a x }, s.live⟩
      else none

/-- A program starts with no heap page mapped. -/
structure Heap.Fresh (h : Heap) : Prop where
  mptr : h.mptr = 0#32
  unmapped : ∀ p, InHeap p → h.uvpt p = none

/-- The states that a program reaches when every step satisfies `Ok`. -/
inductive HeapReached (Ok : HeapRun → HeapEvent → Prop) : HeapRun → Prop where
  | start {h : Heap} : h.Fresh → HeapReached Ok ⟨h, []⟩
  | step {s s' : HeapRun} (ev : HeapEvent) :
      HeapReached Ok s → Ok s ev → ev.step s = some s' → HeapReached Ok s'

/-! ## What is promised -/

/-- The bytes of the block are in the heap, mapped, and apart from those of other
blocks and from the reference counts. -/
structure Block.Safe (h : Heap) (others : List Block) (b : Block) : Prop where
  inside : mbegin ≤ b.addr ∧ b.addr.toNat + b.size.toNat ≤ mend.toNat
  mapped : ∀ a, b.Has a → h.uvpt (a / 4096) ≠ none
  apart : ∀ b', b' ∈ others → ∀ a, b.Has a → ¬ b'.Has a
  refs : ∀ p, InHeap p → h.uvpt p = some false → ∀ a, b.Has a →
    ¬ (refAddr p ≤ a ∧ a < refAddr p + 4)

/-- `malloc` returns, with a null pointer or a safe block. -/
def MallocSafe (s : HeapRun) (size : U32) : Prop :=
  ∃ v h, (malloc size).run s.heap = .ret v h ∧
    (v ≠ 0#32 → (⟨v, size⟩ : Block).Safe h s.live)

/-- The block fits into the rest of the page of `mptr`. -/
def FitsPage (h : Heap) (size : U32) : Prop :=
  pgnum h.mptr = pgnum (h.mptr + roundUp size 4#32 - 1#32 + 4#32)

instance (h : Heap) (size : U32) : Decidable (FitsPage h size) :=
  inferInstanceAs (Decidable (_ = _))

/-- The state in which `malloc(size)` is called is none of those that it does not cope
with. -/
structure MallocClear (h : Heap) (size : U32) : Prop where
  noWrap : size ≤ 0xFFFFFFFC#32
  refFits : h.mptr % pgsize ≠ 0#32 → roundUp size 4#32 < maxMalloc → FitsPage h size →
    refOf h (pgnum h.mptr) ≠ 0xFFFFFFFF#32
  notLast : h.mptr % pgsize ≠ 0#32 → roundUp size 4#32 < maxMalloc →
    ¬ FitsPage h size → pgnum h.mptr + 1 < pgnum mend

/-- All calls of `malloc` are made in clear states. -/
def HeapClear (s : HeapRun) : HeapEvent → Prop
  | .malloc size => MallocClear s.heap size
  | .free _ => True
  | .store _ _ => True

/-! ## The invariant gives the promise -/

section Promise

variable {extra : Nat → Nat} {h : Heap} {live : List Block} {b : Block}

theorem Block.Has.room {a : Nat} (ha : b.Has a) (hb : Placed h b) :
    b.addr.toNat ≤ a ∧ a < b.addr.toNat + b.room := by
  have hfits := hb.fits
  unfold Block.Has at ha
  omega

/-- A byte of a block is in one of its pages. -/
theorem Block.Has.page {a : Nat} (ha : b.Has a) (hb : Placed h b) :
    b.first ≤ a / 4096 ∧ a / 4096 ≤ b.last := by
  have hroom := ha.room hb
  unfold Block.first Block.last
  omega

/-- A byte of a block is no byte of a reference count. -/
theorem Block.Has.not_ref {a p : Nat} (ha : b.Has a) (hb : Placed h b)
    (hp : h.uvpt p = some false) : a < refAddr p ∨ refAddr p + 4 ≤ a := by
  have hroom := ha.room hb
  have hend := hb.end_le
  obtain ⟨hlo, hhi⟩ := ha.page hb
  by_cases hpage : a / 4096 = p
  · rcases Nat.eq_or_lt_of_le hhi with heq | hlt
    · rw [← hpage, heq]
      exact Or.inl (by omega)
    · have hcont := hb.cont _ hlo hlt
      rw [hpage, hp] at hcont
      exact absurd hcont (by simp)
  · unfold refAddr
    omega

theorem Malloc.HeapInv.safe (hinv : HeapInv extra h (b :: live)) : b.Safe h live := by
  have hb := hinv.placed b List.mem_cons_self
  refine ⟨⟨?_, ?_⟩, fun a ha => ?_, fun b' hb' a ha ha' => ?_, fun p _ hp a ha href => ?_⟩
  · rw [BitVec.le_def, mbegin_toNat]
    exact hb.lo
  · rw [mend_toNat]
    have hhi := hb.hi
    have hfits := hb.fits
    omega
  · obtain ⟨hlo, hhi⟩ := ha.page hb
    exact hb.mapped hlo hhi
  · have hroom := ha.room hb
    have hroom' := ha'.room (hinv.placed b' (List.mem_cons_of_mem _ hb'))
    have hapart := (List.pairwise_cons.mp hinv.apart).1 b' hb'
    unfold Block.Apart at hapart
    omega
  · have hnot := ha.not_ref hb hp
    omega

/-- The order of the blocks does not matter. -/
theorem Malloc.HeapInv.perm {live' : List Block} (hinv : HeapInv extra h live)
    (hperm : live.Perm live') : HeapInv extra h live' := by
  have hmem : ∀ {b}, b ∈ live' ↔ b ∈ live := fun {b} => hperm.mem_iff.symm
  refine ⟨hinv.ptr, hinv.ptr_aligned, hinv.ptr_held,
    fun hoff b hb => hinv.ptr_after hoff b (hmem.mp hb),
    fun b hb => hinv.placed b (hmem.mp hb), ?_, fun p hp hpl => ?_, hinv.extra_mapped,
    fun p hp hpc => ?_⟩
  · exact (hperm.pairwise_iff (fun hab => hab.symm)).mp hinv.apart
  · have hcount : blocksIn live' p = blocksIn live p := hperm.symm.countP_eq _
    rw [hcount]
    exact hinv.refs p hp hpl
  · obtain ⟨b, hb, hin⟩ := hinv.cont_used p hp hpc
    exact ⟨b, hmem.mpr hb, hin⟩

end Promise

/-! ## The calls -/

section Calls

variable {extra : Nat → Nat} {h : Heap} {live : List Block} {b : Block} {n size : U32}

theorem mod_pgsize (a : U32) : a % pgsize = 0#32 ↔ a.toNat % 4096 = 0 := by
  rw [← BitVec.toNat_inj, BitVec.toNat_umod]
  rfl

/-- The end of a block that begins in the heap. -/
theorem blockEnd_toNat {a : U32} (ha : a.toNat < 65536 * 4096) (hn : n.toNat < 0x100000) :
    (a + n - 1#32 + 4#32).toNat = a.toNat + n.toNat + 3 := by
  bv_omega

/-- A block in the page of the pointer. -/
theorem mallocRounded_enter (hinv : HeapInv extra h live)
    (hptr : h.mptr.toNat < 65536 * 4096) (hround : roundUp size 4#32 = n)
    (hsize : size.toNat ≤ n.toNat) (hn : n.toNat < 0x100000)
    (hoff : h.mptr.toNat % 4096 ≠ 0) (hfits : FitsPage h size)
    (hroom : refOf h (pgnum h.mptr) ≠ 0xFFFFFFFF#32) :
    ∃ h', (mallocRounded n).run h = .ret h.mptr h' ∧
      HeapInv extra h' (⟨h.mptr, size⟩ :: live) ∧
      h'.mptr.toNat / 4096 = h.mptr.toNat / 4096 := by
  have hpmap := (hinv.extra_mapped _ (hinv.ptr_held hoff)).2
  have halign := hinv.ptr_aligned
  have hsum : (h.mptr + n).toNat = h.mptr.toNat + n.toNat := by
    rw [BitVec.toNat_add]
    omega
  have hpage : (h.mptr.toNat + n.toNat + 3) / 4096 = h.mptr.toNat / 4096 := by
    unfold FitsPage at hfits
    rw [hround, pgnum_eq, pgnum_eq, blockEnd_toNat hptr hn] at hfits
    exact hfits.symm
  have hup : (roundUp h.mptr pgsize - 4#32).toNat = refAddr (h.mptr.toNat / 4096) := by
    have hpg := roundUp_toNat (a := h.mptr) (by omega)
    have h4 : (4#32 : U32).toNat = 4 := rfl
    rw [BitVec.toNat_sub_of_le (by rw [BitVec.le_def, hpg, h4]; omega), hpg, h4, refAddr]
    omega
  have hnum : pgnum (roundUp h.mptr pgsize - 4#32) = h.mptr.toNat / 4096 := by
    rw [pgnum_eq, hup, refAddr]
    omega
  have hmapped : h.uvpt (pgnum (roundUp h.mptr pgsize - 4#32)) ≠ none := by
    rw [hnum, hpmap]
    simp
  have hbroom : (⟨h.mptr, size⟩ : Block).room = n.toNat := congrArg BitVec.toNat hround
  rw [pgnum_eq] at hroom
  have henter := hinv.enter (b := ⟨h.mptr, size⟩) (a := h.mptr + n) hoff rfl
    (by rw [hbroom]; exact hsize) (by rw [hbroom]; exact hpage) hroom
    (by rw [hbroom]; exact hsum)
  refine ⟨_, ?_, henter, ?_⟩
  · have hmax : ¬ maxMalloc ≤ n := by
      rw [BitVec.le_def]
      exact Nat.not_le.mpr hn
    have hfits' : pgnum h.mptr = pgnum (h.mptr + n - 1#32 + 4#32) := by
      rw [← hround]
      exact hfits
    unfold mallocRounded
    rw [Prog.run_bind_ret (a := h) (t := h) rfl, if_neg hmax,
      if_pos (fun hh => hoff ((mod_pgsize _).mp hh)), if_pos hfits']
    simp only
    rw [Prog.run_bind_ret (loadWord_run hmapped), Prog.run_bind_ret (storeWord_run hmapped),
      hup]
    rfl
  · change (h.mptr + n).toNat / 4096 = _
    omega

/-- The pointer leaves its page, and drops its reference. -/
theorem HeapInv.leave (hinv : HeapInv extra h live) {a : U32}
    (hoff : h.mptr.toNat % 4096 ≠ 0) (ha : a.toNat = (h.mptr.toNat / 4096 + 1) * 4096)
    (hlast : h.mptr.toNat / 4096 + 1 < 65536) :
    HeapInv (Function.update extra (h.mptr.toNat / 4096) (extra (h.mptr.toNat / 4096) - 1))
      { dropped h (h.mptr.toNat / 4096) (h.mptr.toNat / 4096) with mptr := a } live := by
  have hheld := hinv.ptr_held hoff
  obtain ⟨hin, hmap⟩ := hinv.extra_mapped _ hheld
  refine hinv.drop (List.Sublist.refl _) (fun p => ?_) (fun p hp => ?_)
    (fun p hlo hhi => by omega) (fun p hlo hhi => by omega) (fun _ _ _ hb _ _ => hb) hin hmap
    (Or.inr ?_) (by omega) (fun hh => ?_) (fun hh => ?_)
  · by_cases hp : p = h.mptr.toNat / 4096
    · rw [if_pos hp, hp, Function.update_self]
      omega
    · rw [if_neg hp, Function.update_of_ne hp]
      omega
  · by_cases hpp : p = h.mptr.toNat / 4096
    · rw [hpp]
      exact hheld
    · rwa [Function.update_of_ne hpp] at hp
  · obtain ⟨hlo, -⟩ := hin
    omega
  · omega
  · omega

/-- `malloc` with a size that is a multiple of 4. -/
theorem mallocRounded_result (hinv : HeapInv extra h live)
    (hptr : 32768 * 4096 ≤ h.mptr.toNat ∧ h.mptr.toNat < 65536 * 4096)
    (hround : roundUp size 4#32 = n) (hsize : size.toNat ≤ n.toNat)
    (hclear : MallocClear h size) :
    ∃ v h' extra', (mallocRounded n).run h = .ret v h' ∧
      HeapInv extra' h' (withBlock live size v) ∧
      (v = 0#32 → Refused h h' n) ∧
      (AtPtr extra h.mptr → (n < maxMalloc → h.mptr.toNat % 4096 = 0 →
        extra (h.mptr.toNat / 4096) = 0) → AtPtr extra' h'.mptr) := by
  by_cases hmax : maxMalloc ≤ n
  · refine ⟨0#32, h, extra, ?_, ?_, fun _ => Or.inl hmax, fun hat _ => hat⟩
    · unfold mallocRounded
      rw [Prog.run_bind_ret (a := h) (t := h) rfl, if_pos hmax]
      rfl
    · rw [withBlock, if_pos rfl]
      exact hinv
  have hn : n.toNat < 0x100000 := by
    rw [BitVec.le_def] at hmax
    exact Nat.not_le.mp hmax
  have hlt : n < maxMalloc := BitVec.not_le.mp hmax
  by_cases hoff : h.mptr.toNat % 4096 = 0
  · -- at the start of a page
    obtain ⟨hlo, hhi⟩ := hptr
    have hrun : (mallocRounded n).run h = (mallocFresh n).run h := by
      unfold mallocRounded
      rw [Prog.run_bind_ret (a := h) (t := h) rfl, if_neg hmax,
        if_neg (not_not.mpr ((mod_pgsize _).mpr hoff))]
    obtain ⟨v, h', extra', hfresh, hinv', hwhy, hat⟩ := mallocFresh_result
      (p := h.mptr.toNat / 4096) hinv (by omega) ⟨by omega, by omega⟩ hround hsize hn
    refine ⟨v, h', extra', hrun.trans hfresh, hinv', hwhy, fun hpt hzero => hat (fun q => ?_)⟩
    by_contra hq
    obtain ⟨rfl, -⟩ := hpt q hq
    exact hq (hzero hlt hoff)
  · have hne : h.mptr % pgsize ≠ 0#32 := fun hh => hoff ((mod_pgsize _).mp hh)
    have hlt' : roundUp size 4#32 < maxMalloc := by
      rw [hround]
      exact hlt
    by_cases hfits : FitsPage h size
    · obtain ⟨h', hrun, hinv', hsame⟩ := mallocRounded_enter hinv hptr.2 hround hsize hn hoff
        hfits (hclear.refFits hne hlt' hfits)
      have hv : h.mptr ≠ 0#32 := by
        intro hh
        rw [hh] at hoff
        exact hoff rfl
      refine ⟨h.mptr, h', extra, hrun, ?_, fun hh => absurd hh hv, fun hpt _ q hq => ?_⟩
      · rw [withBlock, if_neg hv]
        exact hinv'
      · rw [hsame]
        exact hpt q hq
    · -- the rest of the page is too small
      have hlast := hclear.notLast hne hlt' hfits
      rw [pgnum_eq, pgnum_eq, mend_toNat] at hlast
      have hlast' : h.mptr.toNat / 4096 + 1 < 65536 := by omega
      have ha : (roundDown (h.mptr + pgsize) pgsize).toNat =
          (h.mptr.toNat / 4096 + 1) * 4096 := by
        rw [roundDown_toNat, BitVec.toNat_add, pgsize_toNat]
        omega
      have hinv₁ := HeapInv.leave hinv hoff ha hlast'
      obtain ⟨hin, hmap⟩ := hinv.extra_mapped _ (hinv.ptr_held hoff)
      have hfree := free_run (h := h) (v := h.mptr) rfl hin.1 (Nat.le_refl _) hin.2
        (fun q hq hq' => by omega) hmap
      have hrun : (mallocRounded n).run h = (mallocFresh n).run
          { dropped h (h.mptr.toNat / 4096) (h.mptr.toNat / 4096) with
            mptr := roundDown (h.mptr + pgsize) pgsize } := by
        have hfits' : ¬ pgnum h.mptr = pgnum (h.mptr + n - 1#32 + 4#32) := by
          rw [← hround]
          exact hfits
        unfold mallocRounded
        rw [Prog.run_bind_ret (a := h) (t := h) rfl, if_neg hmax, if_pos hne, if_neg hfits',
          Prog.run_bind_ret hfree]
        rfl
      obtain ⟨hlo, hhi⟩ := hin
      obtain ⟨v, h', extra', hfresh, hinv', hwhy, hat⟩ := mallocFresh_result
        (p := h.mptr.toNat / 4096 + 1) hinv₁ ha ⟨by omega, hlast'⟩ hround hsize hn
      refine ⟨v, h', extra', hrun.trans hfresh, hinv', hwhy, fun hpt _ => hat (fun q => ?_)⟩
      by_cases hq : q = h.mptr.toNat / 4096
      · have hone := (hpt _ (hinv.ptr_held hoff)).2
        rw [hq, Function.update_self, hone]
      · rw [Function.update_of_ne hq]
        by_contra hqne
        exact hq (hpt q hqne).1

/-- `malloc` returns, and keeps the invariant. -/
theorem malloc_result (hinv : HeapInv extra h live) (hclear : MallocClear h size) :
    ∃ v h' extra', (malloc size).run h = .ret v h' ∧
      HeapInv extra' h' (withBlock live size v) ∧
      (v = 0#32 → Refused h h' (roundUp size 4#32)) ∧
      (AtPtr extra h.mptr → (roundUp size 4#32 < maxMalloc → h.mptr.toNat % 4096 = 0 →
        extra (h.mptr.toNat / 4096) = 0) → AtPtr extra' h'.mptr) := by
  have hsize : size.toNat ≤ (roundUp size 4#32).toNat := by
    have hle := hclear.noWrap
    have hmax : (0xFFFFFFFC#32 : U32).toNat = 4294967292 := rfl
    rw [BitVec.le_def, hmax] at hle
    rw [roundUp_four (by omega)]
    omega
  unfold malloc
  rw [Prog.run_bind_ret (a := h) (t := h) rfl]
  rcases hinv.ptr with hzero | hptr
  · -- the first call
    have hset : (Prog.when (h.mptr = 0#32) (setMptr mbegin)).run h =
        .ret () { h with mptr := mbegin } := Prog.run_when_true hzero
    rw [Prog.run_bind_ret hset]
    have hstart : ¬ mbegin % pgsize ≠ 0#32 := by decide
    obtain ⟨v, h', extra', hrun, hinv', hwhy, hat⟩ := mallocRounded_result
      (h := { h with mptr := mbegin })
      (hinv.at_page mbegin_toNat ⟨Nat.le_refl _, by decide⟩)
      (by change _ ≤ mbegin.toNat ∧ mbegin.toNat < _; rw [mbegin_toNat]; decide) rfl hsize
      ⟨hclear.noWrap, fun hh => absurd hh hstart, fun hh => absurd hh hstart⟩
    refine ⟨v, h', extra', hrun, hinv', hwhy, fun hpt _ => ?_⟩
    have hnone : ∀ q, extra q = 0 := by
      intro q
      by_contra hq
      have hin := (hinv.extra_mapped q hq).1.1
      have hq0 := (hpt q hq).1
      rw [hzero] at hq0
      change q = 0 / 4096 at hq0
      omega
    exact hat (fun q hq => absurd (hnone q) hq) (fun _ _ => hnone _)
  · have hne : ¬ h.mptr = 0#32 := by
      intro hh
      rw [hh] at hptr
      exact absurd hptr.1 (by decide)
    rw [Prog.run_bind_ret (Prog.run_when_false hne)]
    exact mallocRounded_result hinv hptr rfl hsize hclear

/-- `free` of a live block returns, and keeps the invariant. -/
theorem free_result (hinv : HeapInv extra h live) (hb : b ∈ live) :
    (free b.addr).run h = .ret () (dropped h b.first b.last) ∧
      HeapInv extra (dropped h b.first b.last) (live.erase b) := by
  have hplaced := hinv.placed b hb
  have hin := hplaced.end_inHeap
  have hperm := List.perm_cons_erase hb
  have hapart := (List.pairwise_cons.mp
    ((hperm.pairwise_iff (fun hab => hab.symm)).mp hinv.apart)).1
  have hsub := List.erase_sublist (a := b) (l := live)
  refine ⟨free_run rfl hplaced.first_le b.first_le_last hin.2 hplaced.cont
    hplaced.end_mapped, ?_⟩
  refine hinv.drop (a := h.mptr) hsub (fun p => ?_) (fun _ hp => hp) hplaced.cont
    (fun p hlo hhi b' hb' => ?_) (fun p hout b' hb' hlo hhi => ?_) hin hplaced.end_mapped
    hinv.ptr hinv.ptr_aligned hinv.ptr_held
    (fun hoff b' hb' => hinv.ptr_after hoff b' (hsub.subset hb'))
  · rw [blocksIn_erase hb]
    by_cases hp : b.last = p
    · rw [if_pos hp, if_pos hp.symm]
      omega
    · rw [if_neg hp, if_neg (Ne.symm hp)]
      omega
  · exact hplaced.not_both (hinv.placed b' (hsub.subset hb')) (hapart b' hb') hlo hhi
  · have hne : b' ≠ b := by
      rintro rfl
      exact hout ⟨hlo, hhi⟩
    exact (List.mem_erase_of_ne hne).mpr hb'

/-- A program that writes to its blocks writes to no reference count. -/
theorem store_result {a : Nat} {x : U8} (hinv : HeapInv extra h live) (hb : b ∈ live)
    (ha : b.Has a) :
    HeapInv extra { h with mem := Function.update h.mem a x } live := by
  refine ⟨hinv.ptr, hinv.ptr_aligned, hinv.ptr_held, hinv.ptr_after,
    fun b' hb' => (hinv.placed b' hb').congr (fun _ _ _ => rfl), hinv.apart,
    fun p hp hpl => ?_, hinv.extra_mapped, hinv.cont_used⟩
  have hnot := ha.not_ref (hinv.placed b hb) hpl
  have hword : refOf { h with mem := Function.update h.mem a x } p = refOf h p :=
    word_congr (fun y hlo hhi => update_of_apart (by omega))
  rw [hword]
  exact hinv.refs p hp hpl

end Calls

/-! ## Every run -/

/-- Before the first call nothing refers to the heap. -/
theorem Heap.Fresh.inv {h : Heap} (hfresh : h.Fresh) : HeapInv (fun _ => 0) h [] := by
  have hzero : h.mptr.toNat % 4096 = 0 := by
    rw [hfresh.mptr]
    rfl
  refine ⟨Or.inl hfresh.mptr, by omega, fun hh => absurd hzero hh,
    fun hh => absurd hzero hh, by simp, List.Pairwise.nil, fun p hp hpl => ?_, by simp,
    fun p hp hpc => ?_⟩
  · rw [hfresh.unmapped p hp] at hpl
    exact absurd hpl (by simp)
  · rw [hfresh.unmapped p hp] at hpc
    exact absurd hpc (by simp)

section Run

variable {extra : Nat → Nat} {s s' : HeapRun} {ev : HeapEvent}

/-- What a step does, when it is made in a clear state. -/
theorem HeapEvent.step_cases (hinv : HeapInv extra s.heap s.live) (hclear : HeapClear s ev)
    (hstep : ev.step s = some s') :
    (∃ size v extra', ev = .malloc size ∧ s'.live = withBlock s.live size v ∧
      HeapInv extra' s'.heap s'.live ∧
      (AtPtr extra s.heap.mptr → (roundUp size 4#32 < maxMalloc →
        s.heap.mptr.toNat % 4096 = 0 → extra (s.heap.mptr.toNat / 4096) = 0) →
        AtPtr extra' s'.heap.mptr)) ∨
    (∃ b, ev = .free b ∧ b ∈ s.live ∧ s' = ⟨dropped s.heap b.first b.last, s.live.erase b⟩ ∧
      HeapInv extra s'.heap s'.live) ∨
    (∃ a x, ev = .store a x ∧
      s' = ⟨{ s.heap with mem := Function.update s.heap.mem a x }, s.live⟩ ∧
      HeapInv extra s'.heap s'.live) := by
  cases ev with
  | malloc size =>
      obtain ⟨v, h', extra', hrun, hinv', -, hat⟩ := malloc_result hinv hclear
      simp only [step, hrun, Option.some.injEq] at hstep
      subst hstep
      exact Or.inl ⟨size, v, extra', rfl, rfl, hinv', hat⟩
  | free b =>
      simp only [step] at hstep
      by_cases hb : b ∈ s.live
      · obtain ⟨hrun, hinv'⟩ := free_result hinv hb
        rw [if_pos hb, hrun] at hstep
        obtain rfl := Option.some.inj hstep
        exact Or.inr (Or.inl ⟨b, rfl, hb, rfl, hinv'⟩)
      · rw [if_neg hb] at hstep
        exact absurd hstep (by simp)
  | store a x =>
      simp only [step] at hstep
      split at hstep
      · rename_i hany
        obtain ⟨b, hb, ha⟩ := List.any_eq_true.mp hany
        obtain rfl := Option.some.inj hstep
        exact Or.inr (Or.inr ⟨a, x, rfl, rfl,
          store_result hinv hb (of_decide_eq_true ha)⟩)
      · exact absurd hstep (by simp)

theorem HeapReached.inv (h : HeapReached HeapClear s) :
    ∃ extra, HeapInv extra s.heap s.live := by
  induction h with
  | start hfresh => exact ⟨_, hfresh.inv⟩
  | step ev _ hclear hstep ih =>
      obtain ⟨extra, hinv⟩ := ih
      rcases HeapEvent.step_cases hinv hclear hstep with
        ⟨_, _, extra', -, -, hinv', -⟩ | ⟨_, -, -, -, hinv'⟩ | ⟨_, _, -, -, hinv'⟩
      · exact ⟨extra', hinv'⟩
      · exact ⟨extra, hinv'⟩
      · exact ⟨extra, hinv'⟩

/-- In a run whose calls are all made in clear states every block stays safe, can be
freed, and the next call keeps its promise if it is made in a clear state. -/
theorem heap_safe (h : HeapReached HeapClear s) :
    (∀ b, b ∈ s.live → b.Safe s.heap (s.live.erase b)) ∧
    (∀ b, b ∈ s.live → ∃ h', (free b.addr).run s.heap = .ret () h') ∧
    (∀ size, MallocClear s.heap size → MallocSafe s size) := by
  obtain ⟨extra, hinv⟩ := h.inv
  refine ⟨fun b hb => (hinv.perm (List.perm_cons_erase hb)).safe,
    fun b hb => ⟨_, (free_result hinv hb).1⟩, fun size hclear => ?_⟩
  obtain ⟨v, h', extra', hrun, hinv', -, -⟩ := malloc_result hinv hclear
  refine ⟨v, h', hrun, fun hv => ?_⟩
  rw [withBlock, if_neg hv] at hinv'
  exact hinv'.safe

end Run

/-- A program that has just started, on a machine with enough memory. -/
def freshHeap : Heap := ⟨fun _ => none, fun _ => 0#8, 0#32, fun _ => true, 0⟩

theorem freshHeap_fresh : freshHeap.Fresh := ⟨rfl, fun _ _ => rfl⟩

theorem heap_safe_first :
    ∃ s, (HeapEvent.malloc 5000#32).step ⟨freshHeap, []⟩ = some s ∧
      s.live = [⟨mbegin, 5000#32⟩] ∧
      (∀ b, b ∈ s.live → b.Safe s.heap (s.live.erase b)) ∧
      (∀ b, b ∈ s.live → ∃ h', (free b.addr).run s.heap = .ret () h') ∧
      (∀ size, MallocClear s.heap size → MallocSafe s size) := by
  have hany : ((HeapEvent.malloc 5000#32).step ⟨freshHeap, []⟩).any
      (fun s => decide (s.live = [⟨mbegin, 5000#32⟩])) = true := by
    decide +kernel
  obtain ⟨s, hs, hlive⟩ := (Option.any_eq_true _ _).mp hany
  have hstart : ¬ freshHeap.mptr % pgsize ≠ 0#32 := by decide
  have hclear : MallocClear freshHeap 5000#32 :=
    ⟨by decide, fun hh => absurd hh hstart, fun hh => absurd hh hstart⟩
  exact ⟨s, hs, of_decide_eq_true hlive,
    heap_safe (.step (.malloc 5000#32) (.start freshHeap_fresh) hclear hs)⟩

/-- `ROUNDUP` of the largest sizes is 0: the block that is returned ends outside the
address space. -/
theorem not_heap_safe :
    ¬ ∀ s, HeapReached (fun _ _ => True) s → ∀ size, MallocSafe s size := by
  intro hall
  obtain ⟨v, h, hrun, hsafe⟩ := hall _ (.start freshHeap_fresh) 0xFFFFFFFD#32
  have hval : (match (malloc 0xFFFFFFFD#32).run freshHeap with
      | .ret v _ => decide (v = mbegin)
      | _ => false) = true := by
    decide +kernel
  change (malloc 0xFFFFFFFD#32).run freshHeap = _ at hrun
  rw [hrun] at hval
  obtain rfl : v = mbegin := of_decide_eq_true hval
  exact absurd (hsafe (by decide)).inside.2 (by decide)

end Jos

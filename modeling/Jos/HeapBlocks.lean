import Jos.HeapPages
import Mathlib.Data.List.Perm.Basic

/-!
# Blocks on the heap

`HeapInv` is what `malloc` and `free` keep: where the live blocks are, which pages
they hold, and what the reference counts say.  A page counts the blocks that end in
it, and `extra` counts what else refers to it: `mptr`, and references that nothing
will ever drop.

There are three ways to change the heap: a block more in the page of `mptr`
(`HeapInv.enter`), new pages for a block (`HeapInv.grow`), and a reference less
(`HeapInv.drop`).
-/

namespace Jos

open Programs Bytes

/-- A block that `malloc(size)` returned. -/
structure Block where
  addr : U32
  size : U32
  deriving DecidableEq

namespace Block

/-- The byte at address `a` is one of the block. -/
def Has (b : Block) (a : Nat) : Prop :=
  b.addr.toNat ≤ a ∧ a < b.addr.toNat + b.size.toNat

instance (b : Block) (a : Nat) : Decidable (b.Has a) :=
  inferInstanceAs (Decidable (_ ∧ _))

/-- The number of bytes taken for the block. -/
def room (b : Block) : Nat := (roundUp b.size 4#32).toNat

/-- The page in which the block begins. -/
def first (b : Block) : Nat := b.addr.toNat / 4096

/-- The page in which the block ends, with its reference count. -/
def last (b : Block) : Nat := (b.addr.toNat + b.room + 3) / 4096

/-- No byte is taken for both blocks. -/
def Apart (b b' : Block) : Prop :=
  b.addr.toNat + b.room ≤ b'.addr.toNat ∨ b'.addr.toNat + b'.room ≤ b.addr.toNat

theorem Apart.symm {b b' : Block} (h : b.Apart b') : b'.Apart b := Or.symm h

end Block

/-- The blocks that end in page `p`. -/
def blocksIn (live : List Block) (p : Nat) : Nat := live.countP (fun b => b.last = p)

theorem roundDown_four (a : U32) : (roundDown a 4#32).toNat = a.toNat / 4 * 4 := by
  have hmod : (a % 4#32).toNat = a.toNat % 4 := BitVec.toNat_umod
  have hle : a % 4#32 ≤ a := by
    rw [BitVec.le_def, hmod]
    omega
  unfold roundDown
  rw [BitVec.toNat_sub_of_le hle, hmod]
  omega

theorem roundUp_four_mod (a : U32) : (roundUp a 4#32).toNat % 4 = 0 := by
  unfold roundUp
  rw [roundDown_four]
  omega

/-- `ROUNDUP(n, 4)` rounds up as long as the sum does not wrap. -/
theorem roundUp_four {a : U32} (h : a.toNat + 3 < 2 ^ 32) :
    (roundUp a 4#32).toNat = (a.toNat + 3) / 4 * 4 := by
  have hsum : (a + 4#32 - 1#32).toNat = a.toNat + 3 := by bv_omega
  unfold roundUp
  rw [roundDown_four, hsum]

theorem Block.room_mod (b : Block) : b.room % 4 = 0 := roundUp_four_mod b.size

theorem Block.first_le_last (b : Block) : b.first ≤ b.last := by
  unfold Block.first Block.last
  omega

namespace Malloc

/-! ## The invariant -/

/-- The block lies in the heap, and the pages that it needs are there: if there are
several it begins the first of them, and ends where a reference count fits. -/
structure Placed (h : Heap) (b : Block) : Prop where
  fits : b.size.toNat ≤ b.room
  lo : 32768 * 4096 ≤ b.addr.toNat
  hi : b.addr.toNat + b.room + 4 ≤ 65536 * 4096
  aligned : b.addr.toNat % 4 = 0
  onePage : b.addr.toNat % 4096 = 0 ∨ b.last = b.first
  cont : ∀ p, b.first ≤ p → p < b.last → h.uvpt p = some true
  end_mapped : h.uvpt b.last = some false

/-- The state of the heap between calls. -/
structure HeapInv (extra : Nat → Nat) (h : Heap) (live : List Block) : Prop where
  ptr : h.mptr = 0#32 ∨ (32768 * 4096 ≤ h.mptr.toNat ∧ h.mptr.toNat < 65536 * 4096)
  ptr_aligned : h.mptr.toNat % 4 = 0
  ptr_held : h.mptr.toNat % 4096 ≠ 0 → extra (h.mptr.toNat / 4096) ≠ 0
  ptr_after : h.mptr.toNat % 4096 ≠ 0 → ∀ b, b ∈ live →
    b.last = h.mptr.toNat / 4096 → b.addr.toNat + b.room ≤ h.mptr.toNat
  placed : ∀ b, b ∈ live → Placed h b
  apart : live.Pairwise Block.Apart
  refs : ∀ p, InHeap p → h.uvpt p = some false →
    (refOf h p).toNat = blocksIn live p + extra p ∧ 0 < (refOf h p).toNat
  extra_mapped : ∀ p, extra p ≠ 0 → InHeap p ∧ h.uvpt p = some false
  cont_used : ∀ p, InHeap p → h.uvpt p = some true →
    ∃ b, b ∈ live ∧ b.first ≤ p ∧ p < b.last

section Blocks

variable {extra extra' : Nat → Nat} {h h' h₀ : Heap} {live live' : List Block} {b b' : Block}
  {p q first last : Nat} {a : U32}

theorem Placed.first_le (hb : Placed h b) : 32768 ≤ b.first := by
  have hlo := hb.lo
  unfold Block.first
  omega

theorem Placed.last_lt (hb : Placed h b) : b.last < 65536 := by
  have hhi := hb.hi
  unfold Block.last
  omega

theorem Placed.end_inHeap (hb : Placed h b) : InHeap b.last :=
  ⟨hb.first_le.trans b.first_le_last, hb.last_lt⟩

/-- All pages of a block are mapped. -/
theorem Placed.mapped (hb : Placed h b) (hlo : b.first ≤ p) (hhi : p ≤ b.last) :
    h.uvpt p ≠ none := by
  rcases Nat.eq_or_lt_of_le hhi with rfl | hlt
  · rw [hb.end_mapped]
    simp
  · rw [hb.cont p hlo hlt]
    simp

/-- A block ends before the reference count of its last page. -/
theorem Placed.end_le (hb : Placed h b) : b.addr.toNat + b.room ≤ refAddr b.last := by
  have hroom := b.room_mod
  have ha := hb.aligned
  unfold Block.last refAddr
  omega

/-- A page with `PTE_CONTINUED` is all the block's. -/
theorem Placed.covers (hb : Placed h b) (hlo : b.first ≤ p) (hhi : p < b.last) :
    b.addr.toNat ≤ p * 4096 ∧ (p + 1) * 4096 ≤ b.addr.toNat + b.room := by
  have hroom := b.room_mod
  have ha := hb.aligned
  have hone := hb.onePage
  unfold Block.last Block.first at *
  omega

/-- A block stays where it is as long as the entries of its pages do not change. -/
theorem Placed.congr (hb : Placed h b)
    (hsame : ∀ p, b.first ≤ p → p ≤ b.last → h'.uvpt p = h.uvpt p) : Placed h' b :=
  ⟨hb.fits, hb.lo, hb.hi, hb.aligned, hb.onePage,
    fun p hlo hhi => (hsame p hlo (Nat.le_of_lt hhi)).trans (hb.cont p hlo hhi),
    (hsame b.last b.first_le_last (Nat.le_refl _)).trans hb.end_mapped⟩

/-- Two blocks do not share a page with `PTE_CONTINUED`. -/
theorem Placed.not_both (hb : Placed h b) (hb' : Placed h b') (hapart : b.Apart b')
    (hlo : b.first ≤ p) (hhi : p < b.last) : ¬ (b'.first ≤ p ∧ p < b'.last) := by
  rintro ⟨hlo', hhi'⟩
  have hcov := hb.covers hlo hhi
  have hcov' := hb'.covers hlo' hhi'
  unfold Block.Apart at hapart
  omega

/-- Blocks in different pages are apart. -/
theorem Placed.apart_of_pages (hb : Placed h b) (hb' : Placed h' b')
    (hpages : b.last < b'.first ∨ b'.last < b.first) : b.Apart b' := by
  have hend := hb.end_le
  have hend' := hb'.end_le
  unfold Block.Apart refAddr Block.first at *
  omega

/-! ### Reference counts -/

/-- The reference counts of two pages are different words. -/
theorem refOf_setWord {w : U32} :
    word (setWord h.mem (refAddr q) w) (refAddr p) = if p = q then w else refOf h p := by
  by_cases hp : p = q
  · rw [if_pos hp, hp]
    exact word_setWord_self
  · rw [if_neg hp]
    refine word_setWord_of_apart ?_
    unfold refAddr
    omega

theorem blocksIn_cons : blocksIn (b :: live) p =
    blocksIn live p + if b.last = p then 1 else 0 := by
  unfold blocksIn
  rw [List.countP_cons]
  simp

theorem blocksIn_erase (hb : b ∈ live) :
    blocksIn live p = blocksIn (live.erase b) p + if b.last = p then 1 else 0 := by
  rw [← blocksIn_cons]
  exact (List.perm_cons_erase hb).countP_eq _

theorem blocksIn_eq_zero (hnone : ∀ b, b ∈ live → b.last ≠ p) : blocksIn live p = 0 := by
  unfold blocksIn
  rw [List.countP_eq_zero]
  exact fun b hb => by simpa using hnone b hb

/-! ### Changes -/

/-- A change that no block and no mapped reference count notices, with the pointer at
the start of a page. -/
theorem HeapInv.congr (hinv : HeapInv extra h live)
    (hptr : 32768 * 4096 ≤ h'.mptr.toNat ∧ h'.mptr.toNat < 65536 * 4096)
    (hstart : h'.mptr.toNat % 4096 = 0) (huvpt : h'.uvpt = h.uvpt)
    (hrefs : ∀ p, h.uvpt p = some false → refOf h' p = refOf h p) :
    HeapInv extra h' live where
  ptr := Or.inr hptr
  ptr_aligned := by omega
  ptr_held hoff := absurd hstart hoff
  ptr_after hoff := absurd hstart hoff
  placed b hb := (hinv.placed b hb).congr (fun p _ _ => by rw [huvpt])
  apart := hinv.apart
  refs p hp hlast := by
    rw [huvpt] at hlast
    rw [hrefs p hlast]
    exact hinv.refs p hp hlast
  extra_mapped p hp := by
    rw [huvpt]
    exact hinv.extra_mapped p hp
  cont_used p hp hcont := by
    rw [huvpt] at hcont
    exact hinv.cont_used p hp hcont

/-- A block more in the page of the pointer, which is the block's page. -/
theorem HeapInv.enter (hinv : HeapInv extra h live) (hoff : h.mptr.toNat % 4096 ≠ 0)
    (hb : b.addr = h.mptr) (hfits : b.size.toNat ≤ b.room)
    (hpage : (h.mptr.toNat + b.room + 3) / 4096 = h.mptr.toNat / 4096)
    (hroom : refOf h (h.mptr.toNat / 4096) ≠ 0xFFFFFFFF#32)
    (ha : a.toNat = h.mptr.toNat + b.room) :
    HeapInv extra { h with
      mem := setWord h.mem (refAddr (h.mptr.toNat / 4096))
        (refOf h (h.mptr.toNat / 4096) + 1#32)
      mptr := a } (b :: live) := by
  obtain ⟨hpin, hpmap⟩ := hinv.extra_mapped _ (hinv.ptr_held hoff)
  have hmod := b.room_mod
  have halign := hinv.ptr_aligned
  have hlast : b.last = h.mptr.toNat / 4096 := by
    unfold Block.last
    rw [hb, hpage]
  have hfirst : b.first = h.mptr.toNat / 4096 := by
    unfold Block.first
    rw [hb]
  have hplaced : Placed h b := by
    obtain ⟨hlo, hhi⟩ := hpin
    refine ⟨hfits, ?_, ?_, ?_, Or.inr (hlast.trans hfirst.symm), fun p hp hp' => ?_, ?_⟩
    · rw [hb]
      omega
    · rw [hb]
      omega
    · rw [hb]
      exact halign
    · omega
    · rw [hlast]
      exact hpmap
  have hsame : (a.toNat) / 4096 = h.mptr.toNat / 4096 := by
    rw [ha]
    omega
  refine ⟨Or.inr ?_, ?_, fun _ => ?_, fun _ b' hb' hb'last => ?_, ?_, ?_, ?_,
    hinv.extra_mapped, ?_⟩
  · obtain ⟨hlo, hhi⟩ := hpin
    change _ ≤ a.toNat ∧ a.toNat < _
    omega
  · change a.toNat % 4 = 0
    omega
  · change extra (a.toNat / 4096) ≠ 0
    rw [hsame]
    exact hinv.ptr_held hoff
  · change b'.last = a.toNat / 4096 at hb'last
    change _ ≤ a.toNat
    rw [hsame] at hb'last
    rcases List.mem_cons.mp hb' with rfl | hb'
    · rw [ha, hb]
    · have := hinv.ptr_after hoff b' hb' hb'last
      omega
  · intro b' hb'
    rcases List.mem_cons.mp hb' with rfl | hb'
    · exact hplaced.congr (fun _ _ _ => rfl)
    · exact (hinv.placed b' hb').congr (fun _ _ _ => rfl)
  · refine List.pairwise_cons.mpr ⟨fun b' hb' => ?_, hinv.apart⟩
    have hplaced' := hinv.placed b' hb'
    -- a block of the page lies below the pointer, any other has pages of its own
    rcases Nat.lt_trichotomy b'.last (h.mptr.toNat / 4096) with hlt | heq | hgt
    · exact hplaced.apart_of_pages hplaced' (Or.inr (by omega))
    · have hafter := hinv.ptr_after hoff b' hb' heq
      exact Or.inr (by rw [hb]; exact hafter)
    · refine hplaced.apart_of_pages hplaced' (Or.inl ?_)
      by_contra hle
      have hcont := hplaced'.cont (h.mptr.toNat / 4096) (by omega) hgt
      rw [hpmap] at hcont
      exact absurd hcont (by simp)
  · intro p hp hpl
    obtain ⟨hcount, hpos⟩ := hinv.refs p hp hpl
    rw [blocksIn_cons, hlast]
    change (word (setWord _ _ _) _).toNat = _ ∧ 0 < (word (setWord _ _ _) _).toNat
    rw [refOf_setWord]
    by_cases hpp : p = h.mptr.toNat / 4096
    · rw [if_pos hpp, if_pos hpp.symm, ← hpp]
      rw [← hpp, ne_eq, ← BitVec.toNat_inj] at hroom
      have hone : (1#32 : U32).toNat = 1 := rfl
      have hfull : (0xFFFFFFFF#32 : U32).toNat = 4294967295 := rfl
      have hlt := (refOf h p).isLt
      rw [hfull] at hroom
      rw [BitVec.toNat_add, hone]
      omega
    · rw [if_neg hpp, if_neg (Ne.symm hpp)]
      exact ⟨hcount, hpos⟩
  · intro p hp hcont
    obtain ⟨b', hb', hin⟩ := hinv.cont_used p hp hcont
    exact ⟨b', List.mem_cons_of_mem _ hb', hin⟩

/-- New pages for a block, which the pointer then stands behind. -/
theorem HeapInv.grow {count : Nat} (hinv : HeapInv extra h live)
    (hin : 32768 ≤ p) (hfree : FreeRange h p (p * 4096 + (b.room + 4)))
    (hcount : count = (b.room + 4 + 4095) / 4096) (hb : b.addr.toNat = p * 4096)
    (hfits : b.size.toNat ≤ b.room) (htaken : Taken p count count h h')
    (ha : a.toNat = p * 4096 + b.room) :
    HeapInv (Function.update extra b.last 1) { h' with
      mem := setWord h'.mem (refAddr b.last) 2#32
      mptr := a } (b :: live) := by
  have hmod := b.room_mod
  have hlast : b.last + 1 = p + count := by
    unfold Block.last
    omega
  have hfirst : b.first = p := by
    unfold Block.first
    omega
  have hend : b.last < 65536 ∧ h.uvpt b.last = none := by
    refine hfree b.last (by omega) ?_
    unfold Block.last
    omega
  have hnone : ∀ q, p ≤ q → q < p + count → h.uvpt q = none := by
    intro q hlo hhi
    refine (hfree q hlo ?_).2
    omega
  have hplaced : Placed h' b := by
    refine ⟨hfits, by omega, ?_, by omega, Or.inl (by omega), fun q hlo hhi => ?_, ?_⟩
    · unfold Block.last at hend
      omega
    · rw [htaken.inside q (by omega) (by omega), decide_eq_true (by omega)]
    · rw [htaken.inside b.last (by omega) (by omega), decide_eq_false (by omega)]
  -- the pages of the other blocks were mapped
  have hpages : ∀ b', b' ∈ live → b'.last < p ∨ p + count ≤ b'.first := by
    intro b' hb'
    by_contra hmeet
    have hle := b'.first_le_last
    rcases Nat.le_total b'.first p with hlo | hlo
    · exact (hinv.placed b' hb').mapped hlo (by omega) (hnone p (by omega) (by omega))
    · exact (hinv.placed b' hb').mapped (Nat.le_refl _) hle
        (hnone b'.first hlo (by omega))
  have hplaced' : ∀ b', b' ∈ live → Placed h' b' := fun b' hb' =>
    (hinv.placed b' hb').congr (fun q hlo hhi => htaken.outside q (by
      have := hpages b' hb'
      omega))
  have hextra : extra b.last = 0 := by
    by_contra hne
    have hmapped := (hinv.extra_mapped _ hne).2
    rw [hend.2] at hmapped
    exact absurd hmapped (by simp)
  refine ⟨Or.inr ?_, ?_, fun hoff => ?_, fun hoff b' hb' hb'last => ?_, ?_, ?_, ?_, ?_, ?_⟩
  · change _ ≤ a.toNat ∧ a.toNat < _
    have hhi := hplaced.hi
    omega
  · change a.toNat % 4 = 0
    omega
  · change Function.update extra b.last 1 (a.toNat / 4096) ≠ 0
    have hat : a.toNat / 4096 = b.last := by
      unfold Block.last
      omega
    rw [hat, Function.update_self]
    decide
  · change b'.last = a.toNat / 4096 at hb'last
    change _ ≤ a.toNat
    rcases List.mem_cons.mp hb' with rfl | hb'
    · omega
    · have := hpages b' hb'
      have := b'.first_le_last
      omega
  · intro b' hb'
    rcases List.mem_cons.mp hb' with rfl | hb'
    · exact hplaced.congr (fun _ _ _ => rfl)
    · exact (hplaced' b' hb').congr (fun _ _ _ => rfl)
  · refine List.pairwise_cons.mpr ⟨fun b' hb' => ?_, hinv.apart⟩
    refine hplaced.apart_of_pages (hplaced' b' hb') ?_
    have := hpages b' hb'
    omega
  · intro q hq hql
    change h'.uvpt q = some false at hql
    rw [blocksIn_cons]
    change (word (setWord _ _ _) _).toNat = _ ∧ 0 < (word (setWord _ _ _) _).toNat
    rw [refOf_setWord]
    by_cases hqb : q = b.last
    · rw [if_pos hqb, if_pos hqb.symm, hqb, Function.update_self,
        blocksIn_eq_zero (fun b' hb' => by
          have := hpages b' hb'
          have := b'.first_le_last
          omega)]
      decide
    · rw [if_neg hqb, if_neg (Ne.symm hqb), Function.update_of_ne hqb]
      have hout : ¬ (p ≤ q ∧ q < p + count) := by
        rintro ⟨hlo, hhi⟩
        rw [htaken.inside q hlo hhi, decide_eq_true (by omega)] at hql
        exact absurd hql (by simp)
      rw [htaken.outside q hout] at hql
      have hword : refOf h' q = refOf h q := by
        refine word_congr (fun x hlo hhi => htaken.mem x ?_)
        unfold refAddr at hlo hhi
        omega
      rw [hword]
      exact hinv.refs q hq hql
  · intro q hq
    change InHeap q ∧ h'.uvpt q = some false
    by_cases hqb : q = b.last
    · rw [hqb]
      exact ⟨hplaced.end_inHeap, hplaced.end_mapped⟩
    · rw [Function.update_of_ne hqb] at hq
      obtain ⟨hqin, hqmap⟩ := hinv.extra_mapped q hq
      refine ⟨hqin, (htaken.outside q (fun hh => ?_)).trans hqmap⟩
      rw [hnone q hh.1 hh.2] at hqmap
      exact absurd hqmap (by simp)
  · intro q hq hqc
    change h'.uvpt q = some true at hqc
    by_cases hin : p ≤ q ∧ q < p + count
    · refine ⟨b, List.mem_cons_self, by omega, ?_⟩
      rw [htaken.inside q hin.1 hin.2] at hqc
      have hlt := of_decide_eq_true (Option.some.inj hqc)
      omega
    · rw [htaken.outside q hin] at hqc
      obtain ⟨b', hb', hb'in⟩ := hinv.cont_used q hq hqc
      exact ⟨b', List.mem_cons_of_mem _ hb', hb'in⟩

/-- One reference less to page `last`, and the pages from `first` on that go with it:
that of a block that is gone, or that of the pointer. -/
theorem HeapInv.drop (hinv : HeapInv extra h live) (hsub : live'.Sublist live)
    (hcount : ∀ p, blocksIn live p + extra p =
      blocksIn live' p + extra' p + if p = last then 1 else 0)
    (hextra : ∀ p, extra' p ≠ 0 → extra p ≠ 0)
    (hcont : ∀ p, first ≤ p → p < last → h.uvpt p = some true)
    (hgone : ∀ p, first ≤ p → p < last → ∀ b, b ∈ live' → ¬ (b.first ≤ p ∧ p < b.last))
    (hrest : ∀ p, ¬ (first ≤ p ∧ p < last) → ∀ b, b ∈ live → b.first ≤ p → p < b.last →
      b ∈ live')
    (hin : InHeap last) (hlast : h.uvpt last = some false)
    (hptr : a = 0#32 ∨ (32768 * 4096 ≤ a.toNat ∧ a.toNat < 65536 * 4096))
    (halign : a.toNat % 4 = 0)
    (hheld : a.toNat % 4096 ≠ 0 → extra' (a.toNat / 4096) ≠ 0)
    (hafter : a.toNat % 4096 ≠ 0 → ∀ b, b ∈ live' → b.last = a.toNat / 4096 →
      b.addr.toNat + b.room ≤ a.toNat) :
    HeapInv extra' { dropped h first last with mptr := a } live' := by
  obtain ⟨hrefs, hpos⟩ := hinv.refs last hin hlast
  have hcountLast := hcount last
  rw [if_pos rfl] at hcountLast
  have hone : (1#32 : U32).toNat = 1 := rfl
  have hsub1 : (refOf h last - 1#32).toNat = (refOf h last).toNat - 1 := by
    rw [BitVec.toNat_sub_of_le (by rw [BitVec.le_def, hone]; omega), hone]
  have hlast1 : refOf h last = 1#32 ↔ (refOf h last).toNat = 1 := by
    rw [← BitVec.toNat_inj, hone]
  -- which entries are cleared
  have huvpt : ∀ p, ¬ (first ≤ p ∧ p < last) → ¬ (p = last ∧ refOf h last = 1#32) →
      (dropped h first last).uvpt p = h.uvpt p := fun p hp hp' =>
    if_neg (fun hh => hh.elim hp hp')
  have hsome : ∀ {p : Nat} {c : Bool}, (dropped h first last).uvpt p = some c →
      ¬ (first ≤ p ∧ p < last) ∧ ¬ (p = last ∧ refOf h last = 1#32) ∧
        h.uvpt p = some c := by
    intro p c hp
    unfold dropped at hp
    simp only at hp
    split at hp
    · exact absurd hp (by simp)
    · rename_i hno
      rw [not_or] at hno
      exact ⟨hno.1, hno.2, hp⟩
  have hplaced : ∀ b, b ∈ live' → Placed (dropped h first last) b := by
    intro b hb
    have hb' := hinv.placed b (hsub.subset hb)
    refine hb'.congr (fun p hlo hhi => huvpt p (fun hp => ?_) (fun hp => ?_))
    · rcases Nat.eq_or_lt_of_le hhi with rfl | hlt
      · have hc := hcont b.last hp.1 hp.2
        rw [hb'.end_mapped] at hc
        exact absurd hc (by simp)
      · exact hgone p hp.1 hp.2 b hb ⟨hlo, hlt⟩
    · obtain ⟨rfl, href⟩ := hp
      rcases Nat.eq_or_lt_of_le hhi with rfl | hlt
      · -- the last reference was another's, and `b` still counts
        have hzero : blocksIn live' b.last ≠ 0 := by
          unfold blocksIn
          rw [ne_eq, List.countP_eq_zero]
          exact fun hh => hh b hb (by simp)
        rw [hlast1] at href
        omega
      · have hc := hb'.cont p hlo hlt
        rw [hlast] at hc
        exact absurd hc (by simp)
  refine ⟨hptr, halign, hheld, hafter, fun b hb => (hplaced b hb).congr (fun _ _ _ => rfl),
    hinv.apart.sublist hsub, ?_, ?_, ?_⟩
  · intro p hp hpl
    obtain ⟨-, hne, hpl⟩ := hsome hpl
    obtain ⟨hcp, hpp⟩ := hinv.refs p hp hpl
    have hc := hcount p
    change (word (setWord _ _ _) _).toNat = _ ∧ 0 < (word (setWord _ _ _) _).toNat
    rw [refOf_setWord]
    by_cases hplast : p = last
    · subst hplast
      rw [if_pos rfl, hsub1]
      have hmore : (refOf h p).toNat ≠ 1 := fun hh => hne ⟨rfl, hlast1.mpr hh⟩
      omega
    · rw [if_neg hplast]
      rw [if_neg hplast] at hc
      omega
  · intro p hp
    obtain ⟨hpin, hpmap⟩ := hinv.extra_mapped p (hextra p hp)
    refine ⟨hpin, (huvpt p (fun hh => ?_) (fun hh => ?_)).trans hpmap⟩
    · have hc := hcont p hh.1 hh.2
      rw [hpmap] at hc
      exact absurd hc (by simp)
    · obtain ⟨rfl, href⟩ := hh
      rw [hlast1] at href
      omega
  · intro p hp hpc
    obtain ⟨hout, -, hpc⟩ := hsome hpc
    obtain ⟨b, hb, hlo, hhi⟩ := hinv.cont_used p hp hpc
    exact ⟨b, hrest p hout b hb hlo hhi, hlo, hhi⟩

end Blocks

/-! ## The functions keep it -/

/-- The only reference that is not a block's is one of the pointer, to its page. -/
def AtPtr (extra : Nat → Nat) (a : U32) : Prop :=
  ∀ p, extra p ≠ 0 → p = a.toNat / 4096 ∧ extra p = 1

/-- Why `malloc` may return a null pointer: too large a size, no memory, or no address
space. -/
def Refused (h h' : Heap) (n : U32) : Prop :=
  maxMalloc ≤ n ∨ (∃ i, h.hasPage i = false) ∨
    ∀ q, InHeap q → ¬ FreeRange h' q (q * 4096 + (n.toNat + 4))

section Functions

variable {extra : Nat → Nat} {h : Heap} {live : List Block} {b : Block} {p : Nat}
  {n size : U32}

theorem add_four (hn : n.toNat < 0x100000) : (n + 4#32).toNat = n.toNat + 4 := by
  have hfour : (4#32 : U32).toNat = 4 := rfl
  rw [BitVec.toNat_add, hfour]
  omega

/-- The pointer may stand at the start of any page of the heap. -/
theorem HeapInv.at_page (hinv : HeapInv extra h live) {a : U32} (ha : a.toNat = p * 4096)
    (hp : InHeap p) : HeapInv extra { h with mptr := a } live := by
  obtain ⟨hlo, hhi⟩ := hp
  refine hinv.congr ?_ ?_ rfl (fun _ _ => rfl)
  · change _ ≤ a.toNat ∧ a.toNat < _
    omega
  · change a.toNat % 4096 = 0
    omega

/-- The end of `malloc`: the first reference count of a page is 2. -/
theorem freshEnd_run {count : Nat} (hmptr : h.mptr.toNat = p * 4096) (hcount : 0 < count)
    (hle : p + count ≤ 65536) (hmapped : h.uvpt (p + count - 1) ≠ none) :
    (do
      let h ← Prog.get
      storeWord (h.mptr + BitVec.ofNat 32 (count * 4096) - 4#32) 2#32
      setMptr (h.mptr + n)
      pure h.mptr).run h = .ret h.mptr { h with
        mem := setWord h.mem (refAddr (p + count - 1)) 2#32
        mptr := h.mptr + n } := by
  have hnext := mptr_page hmptr hle
  have h4 : (4#32 : U32).toNat = 4 := rfl
  have href : (h.mptr + BitVec.ofNat 32 (count * 4096) - 4#32).toNat =
      refAddr (p + count - 1) := by
    rw [BitVec.toNat_sub_of_le (by rw [BitVec.le_def, hnext, h4]; omega), hnext, h4, refAddr]
    omega
  have hnum : pgnum (h.mptr + BitVec.ofNat 32 (count * 4096) - 4#32) = p + count - 1 := by
    rw [pgnum_eq, href, refAddr]
    omega
  rw [Prog.run_bind_ret (a := h) (t := h) rfl,
    Prog.run_bind_ret (storeWord_run (by rw [hnum]; exact hmapped)), href]
  rfl

/-- New pages, when no reference but those of blocks is left. -/
theorem mallocFresh_result (hinv : HeapInv extra h live) (hmptr : h.mptr.toNat = p * 4096)
    (hp : InHeap p) (hround : roundUp size 4#32 = n) (hsize : size.toNat ≤ n.toNat)
    (hn : n.toNat < 0x100000) :
    ∃ v h' extra', (mallocFresh n).run h = .ret v h' ∧
      HeapInv extra' h' (if v = 0#32 then live else ⟨v, size⟩ :: live) ∧
      (v = 0#32 → Refused h h' n) ∧
      ((∀ q, extra q = 0) → AtPtr extra' h'.mptr) := by
  have hfour := add_four hn
  have hmod : n.toNat % 4 = 0 := by
    rw [← hround]
    exact roundUp_four_mod size
  obtain ⟨found, a, hsearch, hyes, hno⟩ := mallocSearch_run (n := n) (by omega) 0x200000 0
    hmptr hp (by decide) (by omega) (fun hh => absurd hh (by decide))
  unfold mallocFresh
  rw [Prog.run_bind_ret hsearch]
  cases found with
  | false =>
      rw [if_neg (by decide)]
      obtain ⟨rfl, hfull⟩ := hno rfl
      rw [hfour] at hfull
      refine ⟨0#32, _, extra, rfl, ?_, fun _ => Or.inr (Or.inr hfull),
        fun hzero q hq => absurd (hzero q) hq⟩
      rw [if_pos rfl]
      exact hinv.at_page mbegin_toNat ⟨Nat.le_refl _, by decide⟩
  | true =>
      rw [if_pos rfl]
      obtain ⟨q, ha, hq, hfree⟩ := hyes rfl
      rw [hfour] at hfree
      have hinv₁ := hinv.at_page ha hq
      let h₁ : Heap := { h with mptr := a }
      have hfree₁ : FreeRange h₁ q (q * 4096 + (n.toNat + 4)) := hfree
      let count := (n.toNat + 4 + 4095) / 4096
      have hend := (hfree (q + count - 1) (by omega) (by omega)).1
      rw [hfour]
      rcases mallocPages_run (p := q) (show h₁.mptr.toNat = q * 4096 from ha) hfree₁
        (rfl : count = _) 0x200000
        Taken.refl (Nat.zero_le _) (by omega) with
        ⟨h', hrun, htaken⟩ | ⟨h', k', hrun, huvpt, hmptr', -, hk', hmem, hno⟩
      · rw [Prog.run_bind_ret hrun]
        let b : Block := ⟨a, size⟩
        have hroom : b.room = n.toNat := congrArg BitVec.toNat hround
        have hmptr' : h'.mptr = a := htaken.mptr
        have hat : h'.mptr.toNat = q * 4096 := by rw [hmptr', ha]
        have hlast : b.last = q + count - 1 := by
          change (a.toNat + b.room + 3) / 4096 = _
          rw [hroom]
          omega
        have hsum : (h'.mptr + n).toNat = q * 4096 + n.toNat := by
          rw [BitVec.toNat_add, hat]
          omega
        have hgrow := hinv₁.grow (b := b) (a := h'.mptr + n) hq.1
          (by rw [hroom]; exact hfree₁) (by rw [hroom]) ha
          (by rw [hroom]; exact hsize) htaken (by rw [hroom]; exact hsum)
        have hne : h'.mptr ≠ 0#32 := by
          have hlo := hq.1
          intro hh
          rw [hh] at hat
          change 0 = q * 4096 at hat
          omega
        simp only
        rw [freshEnd_run hat (by omega) (by omega) (by
          rw [htaken.inside _ (by omega) (by omega)]
          simp), ← hlast]
        refine ⟨h'.mptr, _, Function.update extra b.last 1, rfl, ?_,
          fun hh => absurd hh hne, fun hzero r hr => ?_⟩
        · rw [if_neg hne, hmptr']
          rw [hmptr'] at hgrow
          exact hgrow
        · change r = (h'.mptr + n).toNat / 4096 ∧ _
          by_cases hrb : r = b.last
          · rw [hrb, Function.update_self, hsum, hlast]
            exact ⟨by omega, rfl⟩
          · rw [Function.update_of_ne hrb] at hr
            exact absurd (hzero r) hr
      · rw [Prog.run_bind_ret hrun]
        refine ⟨0#32, h', extra, rfl, ?_, fun _ => Or.inr (Or.inl hno),
          fun hzero r hr => absurd (hzero r) hr⟩
        rw [if_pos rfl]
        have hat : h'.mptr.toNat = q * 4096 := by
          rw [hmptr']
          exact ha
        obtain ⟨hqlo, hqhi⟩ := hq
        refine hinv₁.congr (by omega) (by omega) huvpt (fun r hr => ?_)
        -- only pages were touched that nothing refers to
        refine word_congr (fun x hlo hhi => hmem x ?_)
        rintro ⟨hx, hx'⟩
        have hxr : x / 4096 = r := by
          unfold refAddr at hlo hhi
          omega
        rw [hxr] at hx hx'
        have hnone := (hfree r hx (by omega)).2
        change h.uvpt r = some false at hr
        rw [hnone] at hr
        exact absurd hr (by simp)

end Functions

end Malloc

end Jos

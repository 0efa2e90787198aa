import Jos.HeapSafety

/-!
# Heap reclamation

While `mptr` is inside a page it holds a reference to it, which it drops when it
moves on.  It does not drop it when it stands at the start of that page, where a
block whose size is a multiple of the page size leaves it: then the page is never
unmapped again.

In a run in which no call of `malloc` finds the pointer there (`HeapTight`), all the
pages of the heap but one are gone when all blocks are freed, and there is address
space for any block (`heap_reclaimed`).
-/

namespace Jos

open Programs Bytes Malloc

/-- If all blocks are freed, no page is mapped but that of `mptr`, and with memory
enough the next call of `malloc` returns a block. -/
def Reclaimed (Ok : HeapRun → HeapEvent → Prop) (s : HeapRun) : Prop :=
  s.live = [] →
    (∀ p, InHeap p → s.heap.uvpt p ≠ none → p = pgnum s.heap.mptr) ∧
    ∀ size, roundUp size 4#32 < maxMalloc → Ok s (.malloc size) →
      (∀ i, s.heap.hasPage i = true) →
      ∃ v h, (malloc size).run s.heap = .ret v h ∧ v ≠ 0#32

/-- The pointer is not left at the start of a page that counts it: all references to
the page are those of blocks. -/
def PtrFree (s : HeapRun) (size : U32) : Prop :=
  roundUp size 4#32 < maxMalloc → s.heap.mptr ≠ 0#32 → s.heap.mptr % pgsize = 0#32 →
    s.heap.uvpt (pgnum s.heap.mptr) = some false →
    (refOf s.heap (pgnum s.heap.mptr)).toNat = blocksIn s.live (pgnum s.heap.mptr)

/-- All calls of `malloc` are made in clear states, and with the pointer free to go. -/
def HeapTight (s : HeapRun) : HeapEvent → Prop
  | .malloc size => MallocClear s.heap size ∧ PtrFree s size
  | .free _ => True
  | .store _ _ => True

section Reclaim

variable {extra : Nat → Nat} {s : HeapRun} {ev : HeapEvent} {size : U32}

theorem HeapTight.clear (h : HeapTight s ev) : HeapClear s ev := by
  cases ev with
  | malloc size => exact h.1
  | free b => trivial
  | store a x => trivial

/-- A pointer that is free to go has no reference to the page at whose start it is. -/
theorem PtrFree.none_held (hfree : PtrFree s size) (hinv : HeapInv extra s.heap s.live)
    (hlt : roundUp size 4#32 < maxMalloc) (hstart : s.heap.mptr.toNat % 4096 = 0) :
    extra (s.heap.mptr.toNat / 4096) = 0 := by
  by_contra hne
  obtain ⟨hin, hmap⟩ := hinv.extra_mapped _ hne
  have hptr : s.heap.mptr ≠ 0#32 := by
    intro hzero
    rw [hzero] at hin
    exact absurd hin.1 (by decide)
  have hcount := (hinv.refs _ hin hmap).1
  unfold PtrFree at hfree
  rw [pgnum_eq] at hfree
  have hall := hfree hlt hptr ((mod_pgsize _).mpr hstart) hmap
  omega

theorem HeapReached.tight (h : HeapReached HeapTight s) :
    ∃ extra, HeapInv extra s.heap s.live ∧ AtPtr extra s.heap.mptr := by
  induction h with
  | start hfresh => exact ⟨_, hfresh.inv, fun _ hp => absurd rfl hp⟩
  | @step s s' ev _ htight hstep ih =>
      obtain ⟨extra, hinv, hat⟩ := ih
      rcases HeapEvent.step_cases hinv htight.clear hstep with
        ⟨size, _, extra', rfl, -, hinv', hkeep⟩ | ⟨b, -, -, rfl, hinv'⟩ |
        ⟨_, _, -, rfl, hinv'⟩
      · exact ⟨extra', hinv', hkeep hat (fun hlt hstart =>
          htight.2.none_held hinv hlt hstart)⟩
      · exact ⟨extra, hinv', hat⟩
      · exact ⟨extra, hinv', hat⟩

/-- With no block left, a mapped page of the heap is the one that the pointer holds. -/
theorem Malloc.HeapInv.mapped_ptr {h : Heap} {p : Nat} (hinv : HeapInv extra h [])
    (hat : AtPtr extra h.mptr) (hp : InHeap p) (hmapped : h.uvpt p ≠ none) :
    p = h.mptr.toNat / 4096 := by
  cases huvpt : h.uvpt p with
  | none => exact absurd huvpt hmapped
  | some cont =>
      cases cont with
      | true =>
          obtain ⟨b, hb, -⟩ := hinv.cont_used p hp huvpt
          exact absurd hb (by simp)
      | false =>
          obtain ⟨hcount, hpos⟩ := hinv.refs p hp huvpt
          have hzero : blocksIn [] p = 0 := rfl
          exact (hat p (by omega)).1

/-- With one page mapped there is room for any block. -/
theorem exists_freeRange {h : Heap} {n p₀ : Nat} (hn : n < 0x100000)
    (hone : ∀ p, InHeap p → h.uvpt p ≠ none → p = p₀) :
    ∃ q, InHeap q ∧ FreeRange h q (q * 4096 + (n + 4)) := by
  have hfree : ∀ q, 32768 ≤ q → q ≤ 49152 → (p₀ < q ∨ q + 257 ≤ p₀) →
      FreeRange h q (q * 4096 + (n + 4)) := by
    intro q hlo hhi haway p hp hlt
    have hin : InHeap p := ⟨by omega, by omega⟩
    refine ⟨hin.2, ?_⟩
    by_contra hne
    have := hone p hin hne
    omega
  by_cases hp₀ : p₀ < 49152
  · exact ⟨49152, ⟨by decide, by decide⟩, hfree _ (by decide) (by decide) (Or.inl hp₀)⟩
  · exact ⟨32768, ⟨by decide, by decide⟩, hfree _ (by decide) (by decide)
      (Or.inr (by omega))⟩

/-- In a run whose calls of `malloc` all find the pointer free to go, the heap is
reclaimed. -/
theorem heap_reclaimed (h : HeapReached HeapTight s) : Reclaimed HeapTight s := by
  intro hlive
  obtain ⟨extra, hinv, hat⟩ := h.tight
  rw [hlive] at hinv
  refine ⟨fun p hp hmapped => ?_, fun size hlt htight hmem => ?_⟩
  · rw [pgnum_eq]
    exact hinv.mapped_ptr hat hp hmapped
  · obtain ⟨v, h', extra', hrun, hinv', hwhy, hkeep⟩ := malloc_result hinv htight.1
    refine ⟨v, h', hrun, fun hv => ?_⟩
    have hat' := hkeep hat (fun hlt hstart => by
      refine htight.2.none_held ?_ hlt hstart
      rw [hlive]
      exact hinv)
    rw [withBlock, if_pos hv] at hinv'
    rcases hwhy hv with hbig | ⟨i, hi⟩ | hfull
    · exact absurd hlt (BitVec.not_lt.mpr hbig)
    · rw [hmem i] at hi
      exact absurd hi (by decide)
    · obtain ⟨q, hq, hfree⟩ := exists_freeRange (BitVec.lt_def.mp hlt)
        (fun p hp => hinv'.mapped_ptr hat' hp)
      exact hfull q hq hfree

end Reclaim

/-- Several steps. -/
def HeapEvent.steps (evs : List HeapEvent) (s : HeapRun) : Option HeapRun :=
  evs.foldlM (fun s ev => ev.step s) s

theorem HeapReached.steps {s s' : HeapRun} {evs : List HeapEvent}
    (h : HeapReached (fun _ _ => True) s) (hsteps : HeapEvent.steps evs s = some s') :
    HeapReached (fun _ _ => True) s' := by
  induction evs generalizing s with
  | nil =>
      obtain rfl : s = s' := Option.some.inj hsteps
      exact h
  | cons ev evs ih =>
      obtain ⟨s₁, hstep, hrest⟩ := Option.bind_eq_some_iff.mp hsteps
      exact ih (h.step ev trivial hstep) hrest

/-- A block of 5000 bytes, returned and freed. -/
theorem heap_reclaimed_first :
    ∃ s, HeapEvent.steps [.malloc 5000#32, .free ⟨mbegin, 5000#32⟩] ⟨freshHeap, []⟩ = some s ∧
      s.live = [] ∧ Reclaimed HeapTight s := by
  have hany : ((HeapEvent.malloc 5000#32).step ⟨freshHeap, []⟩).any
      (fun s => decide (s.live = [⟨mbegin, 5000#32⟩]) &&
        ((HeapEvent.free ⟨mbegin, 5000#32⟩).step s).any (fun s => decide (s.live = []))) =
      true := by
    decide +kernel
  obtain ⟨s₁, hs₁, hthen⟩ := (Option.any_eq_true _ _).mp hany
  obtain ⟨-, hfree⟩ := Bool.and_eq_true_iff.mp hthen
  obtain ⟨s₂, hs₂, hlive⟩ := (Option.any_eq_true _ _).mp hfree
  have hstart : ¬ freshHeap.mptr % pgsize ≠ 0#32 := by decide
  have hclear : MallocClear freshHeap 5000#32 :=
    ⟨by decide, fun hh => absurd hh hstart, fun hh => absurd hh hstart⟩
  have htight : HeapTight ⟨freshHeap, []⟩ (.malloc 5000#32) :=
    ⟨hclear, fun _ hne => absurd rfl hne⟩
  refine ⟨s₂, ?_, of_decide_eq_true hlive, heap_reclaimed
    (.step (.free ⟨mbegin, 5000#32⟩) (.step _ (.start freshHeap_fresh) htight hs₁) trivial
      hs₂)⟩
  unfold HeapEvent.steps
  rw [List.foldlM_cons, hs₁]
  change (HeapEvent.steps [.free ⟨mbegin, 5000#32⟩] s₁) = _
  unfold HeapEvent.steps
  rw [List.foldlM_cons, hs₂]
  rfl

/-- A block of one page leaves the pointer at the start of a page that is never
unmapped. -/
theorem not_heap_reclaimed :
    ¬ ∀ s, HeapReached (fun _ _ => True) s → Reclaimed HeapTight s := by
  intro hall
  have hany : (HeapEvent.steps [.malloc 4096#32, .malloc 4#32, .free ⟨mbegin, 4096#32⟩,
      .free ⟨0x08002000#32, 4#32⟩] ⟨freshHeap, []⟩).any
      (fun s => decide (s.live = []) && (s.heap.uvpt 32769).isSome &&
        decide (pgnum s.heap.mptr = 32770)) = true := by
    decide +kernel
  obtain ⟨s, hs, hthen⟩ := (Option.any_eq_true _ _).mp hany
  obtain ⟨hthen, hptr⟩ := Bool.and_eq_true_iff.mp hthen
  obtain ⟨hlive, hmapped⟩ := Bool.and_eq_true_iff.mp hthen
  have hpage := (hall s ((HeapReached.start freshHeap_fresh).steps hs)
    (of_decide_eq_true hlive)).1 32769 ⟨by decide, by decide⟩
    (Option.ne_none_iff_isSome.mpr hmapped)
  rw [of_decide_eq_true hptr] at hpage
  exact absurd hpage (by decide)

end Jos

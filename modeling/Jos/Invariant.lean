import Jos.PageAccounting

/-!
# The invariant of memory

`Memory` is about pages and page tables: the books are kept, no count is out
of range, and above `UTOP` every directory is the kernel's, but for the slot
through which it sees itself.
-/

namespace Jos

open Programs RefPool

/-- Above `UTOP` a directory is a copy of `kern_pgdir`, but for `UVPT`. -/
def UpperHalves (dirs : Finset Nat) (m : PhysMem) : Prop :=
  ∀ d i, d ∈ dirs → userPdes ≤ i → m.mem d i = newDir m d i

structure Memory (managed : Set Nat) (k : Kernel) : Prop where
  books : Books managed ∅ k
  counts : ∀ p, refCount k.vm.mem (envDirs k) p ≤ 65535
  upper : UpperHalves (envDirs k) k.vm

/-- Two states of physical memory that differ in the processors only. -/
structure SameMem (m m' : PhysMem) : Prop where
  npages : m'.npages = m.npages
  pages : m'.pages = m.pages
  freeList : m'.pageFreeList = m.pageFreeList
  kernPgdir : m'.kernPgdir = m.kernPgdir
  mem : m'.mem = m.mem

section MemoryChanges

variable {managed : Set Nat} {free : List Nat} {dirs : Finset Nat}
  {k k' : Kernel} {m m' : PhysMem} {c e d p : Nat}

theorem newDir_congr (hk : m'.kernPgdir = m.kernPgdir)
    (hw : m'.mem m.kernPgdir = m.mem m.kernPgdir) (d : Nat) :
    newDir m' d = newDir m d := by
  unfold newDir
  rw [hk, hw]

theorem UpperHalves.of_frame
    (h : UpperHalves dirs m) (hk : KernDir managed m)
    (hf : VmFrame managed dirs m m') :
    UpperHalves dirs m' := by
  intro d i hd hi
  rw [hf.upper d i hd hi, h d i hd hi,
    newDir_congr hf.kernPgdir (hf.outside _ hk.not_managed)]

theorem KernDir.congr (h : KernDir managed m) (hm : SameMem m m') :
    KernDir managed m' := by
  obtain ⟨h₁, h₂, h₃, h₄⟩ := h
  constructor
  · rw [hm.mem, hm.kernPgdir]
    exact h₁
  · rw [hm.kernPgdir]
    exact h₂
  · rw [hm.mem, hm.kernPgdir]
    exact h₃
  · rw [hm.mem, hm.kernPgdir]
    exact h₄

/-- What processors load and what environments save does not matter to the
books. -/
theorem Books.congr {held : Finset Nat}
    (h : Books managed held k) (hm : SameMem k.vm k'.vm) (ht : SameTable k k') :
    Books managed held k' := by
  obtain ⟨free, hacc⟩ := h.accounted
  have hdirs := ht.envDirs_eq
  refine ⟨⟨free, ?_, ?_⟩, h.kernDir.congr hm, h.table.congr ht⟩
  · rw [hdirs, hm.mem]
    exact hacc.ledger.congr hm.pages hm.freeList hm.npages
  · rw [hdirs, hm.mem]
    exact hacc.spaces

theorem Memory.congr
    (h : Memory managed k) (hm : SameMem k.vm k'.vm) (ht : SameTable k k') :
    Memory managed k' := by
  have hdirs := ht.envDirs_eq
  refine ⟨h.books.congr hm ht, ?_, ?_⟩
  · rw [hdirs, hm.mem]
    exact h.counts
  · intro d i hd hi
    rw [hdirs] at hd
    rw [hm.mem, newDir_congr hm.kernPgdir (by rw [hm.mem])]
    exact h.upper d i hd hi

/-- Page tables change, and the table of environments does not. -/
theorem Memory.setVm
    (h : Memory managed k) (hacc : Accounted managed free ∅ (envDirs k) m)
    (hf : VmFrame managed (envDirs k) k.vm m)
    (hcounts : ∀ p, refCount m.mem (envDirs k) p ≤ 65535) :
    Memory managed (k.setVm m) := by
  refine ⟨h.books.setVm hacc hf, ?_, ?_⟩
  · rw [envDirs_setVm]
    exact hcounts
  · rw [envDirs_setVm]
    exact h.upper.of_frame h.books.kernDir hf

theorem Memory.alloc
    {parentId : U32} (h : Memory managed k)
    (hlist : k.envFreeList = some e)
    (hadd : DirAdded managed free ∅ (envDirs k) p k.vm m) :
    Memory managed (k.allocated m e p parentId) := by
  have hdirs : envDirs (k.allocated m e p parentId) = insert p (envDirs k) :=
    envDirs_allocated h.books.table hlist
  refine ⟨Books.alloc h.books.table h.books.kernDir hlist hadd, ?_, ?_⟩
  · intro q
    rw [hdirs, allocated_vm, hadd.counts, incr]
    by_cases hq : q = p
    · rw [hq, Function.update_self, hadd.fresh]
      decide
    · rw [Function.update_of_ne hq]
      exact h.counts q
  · rw [hdirs]
    intro d i hd hi
    have hkern := hadd.frame.outside _ h.books.kernDir.not_managed
    rw [allocated_vm, newDir_congr hadd.frame.kernPgdir hkern]
    rcases Finset.mem_insert.mp hd with rfl | hd
    · rw [hadd.template]
    · rw [hadd.frame.upper d i hd hi]
      exact h.upper d i hd hi

theorem Memory.release
    (h : Memory managed k) (he : e < nenv) (hd : (k.envs e).envPgdir = some d)
    (hf : Freed managed ∅ c e d k k') :
    Memory managed k' := by
  have hbooks := h.books.release he hd hf
  obtain ⟨vm, rfl⟩ := hf.state
  have hdirs : envDirs (k.freed vm e) = (envDirs k).erase d :=
    envDirs_freed h.books.table he hd
  have hspace := hf.space
  have hkern : (k.vm.leaveDir c (k.curenv c = some e)).kernPgdir =
      k.vm.kernPgdir := by
    unfold PhysMem.leaveDir
    split <;> rfl
  refine ⟨hbooks, ?_, ?_⟩
  · intro q
    rw [hdirs]
    refine (hspace.counts q).trans ?_
    rw [leaveDir_mem]
    exact h.counts q
  · rw [hdirs]
    intro d' i hd' hi
    have hd'' := Finset.mem_of_mem_erase hd'
    have hout := hspace.frame.outside _ (hkern ▸ h.books.kernDir.not_managed)
    rw [newDir_congr hspace.frame.kernPgdir hout, hspace.frame.upper d' i hd'' hi,
      newDir_congr hkern (by rw [leaveDir_mem]), leaveDir_mem]
    exact h.upper d' i hd'' hi

end MemoryChanges

end Jos

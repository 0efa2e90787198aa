import Jos.AddressSpace
import Jos.PageLedger

/-!
# What the page-table functions do

The functions of `kern/pmap.c` that walk, fill and clear page tables, on
address spaces whose books are kept: the number of references the allocator
counts is `refCount`, and the address spaces have the shape `AddrSpaces`.
`Accounted` is the conjunction of the two.

For each function there is one theorem that says how it ends and what is true
of the state it leaves: which entry changed, that no other did, and that the
books are kept again.  `page_insert` counts the new reference before it drops
the old one, so between the two the books are one reference ahead of the page
tables; `SlotCleared` describes that state.
-/

namespace Jos

open Programs RefPool

/-! ## Small state changes -/

namespace PhysMem

/-- The effect of `tlb_invalidate`. -/
def invlpg (m : PhysMem) (tc : ThisCpu) (pgdir : Nat) (va : U32) : PhysMem :=
  if tc.curPgdir = none ∨ tc.curPgdir = some (some pgdir) then
    { m with
      tlb := Function.update m.tlb tc.cpu
        (Function.update (m.tlb tc.cpu) (pgnum va) none) }
  else
    m

/-- `pgdir_walk` puts an empty page table into a directory slot. -/
def addTable (m : PhysMem) (pgdir i t : Nat) : PhysMem :=
  (((m.popFree t).setPage t (fun _ => 0#32)).addRef t).setWord pgdir i
    (page2pa t ||| pteP ||| pteU ||| pteW)

/-- `page_remove` drops a reference and clears the entry that held it. -/
def clearEntry (m : PhysMem) (tc : ThisCpu) (pgdir : Nat) (va : U32)
    (pp : Nat) (pte : PtePtr) : PhysMem :=
  ((m.dropRef pp).setWord pte.page pte.idx 0#32).invlpg tc pgdir va

section Frame

variable {m : PhysMem} {tc : ThisCpu} {pgdir pp : Nat} {va : U32}
  {pte : PtePtr}

@[simp] theorem invlpg_mem : (m.invlpg tc pgdir va).mem = m.mem := by
  unfold invlpg
  split <;> rfl

@[simp] theorem invlpg_pages : (m.invlpg tc pgdir va).pages = m.pages := by
  unfold invlpg
  split <;> rfl

@[simp] theorem invlpg_pageFreeList :
    (m.invlpg tc pgdir va).pageFreeList = m.pageFreeList := by
  unfold invlpg
  split <;> rfl

@[simp] theorem invlpg_npages : (m.invlpg tc pgdir va).npages = m.npages := by
  unfold invlpg
  split <;> rfl

@[simp] theorem invlpg_kernPgdir :
    (m.invlpg tc pgdir va).kernPgdir = m.kernPgdir := by
  unfold invlpg
  split <;> rfl

@[simp] theorem invlpg_cr3 : (m.invlpg tc pgdir va).cr3 = m.cr3 := by
  unfold invlpg
  split <;> rfl

@[simp] theorem clearEntry_mem :
    (m.clearEntry tc pgdir va pp pte).mem =
      Mem.set m.mem pte.page pte.idx 0#32 := by
  simp only [clearEntry, invlpg_mem, setWord, setPage,
    (m.dropRef_booksOnly pp).mem]
  rfl

@[simp] theorem clearEntry_npages :
    (m.clearEntry tc pgdir va pp pte).npages = m.npages := by
  simp [clearEntry, setWord, setPage, (m.dropRef_booksOnly pp).npages]

@[simp] theorem clearEntry_kernPgdir :
    (m.clearEntry tc pgdir va pp pte).kernPgdir = m.kernPgdir := by
  simp [clearEntry, setWord, setPage, (m.dropRef_booksOnly pp).kernPgdir]

@[simp] theorem clearEntry_cr3 :
    (m.clearEntry tc pgdir va pp pte).cr3 = m.cr3 := by
  simp [clearEntry, setWord, setPage, (m.dropRef_booksOnly pp).cr3]

end Frame

end PhysMem

/-! ## What the functions compute -/

section Computed

variable {m m₁ : PhysMem} {tc : ThisCpu} {pgdir t p pp : Nat} {va perm w : U32}

theorem readPte_eq (pte : PtePtr) :
    (readPte pte).run m = .ret (m.mem pte.page pte.idx) m := rfl

theorem writePte_eq (pte : PtePtr) (w : U32) :
    (writePte pte w).run m = .ret () (m.setWord pte.page pte.idx w) := rfl

theorem tlbInvalidate_eq :
    (tlbInvalidate tc pgdir va).run m = .ret () (m.invlpg tc pgdir va) := by
  unfold tlbInvalidate PhysMem.invlpg Prog.when
  split <;> rfl

theorem pgdirEntry_eq
    (ht : pgnum (m.mem pgdir (pdx va)) = t) (hn : t < m.npages) :
    (pgdirEntry pgdir va).run m = .ret (some ⟨t, ptx va⟩) m := by
  have hk : (kaddr (pteAddr (m.mem pgdir (pdx va)))).run m = .ret t m := by
    rw [kaddr_eq, pgnum_pteAddr, ht]
    rw [pgnum_pteAddr, ht]
    exact hn
  unfold pgdirEntry
  rw [Prog.run_bind_ret (readPte_eq _), Prog.run_bind_ret hk]
  rfl

theorem pgdirWalk_present {create : Bool}
    (ht : tableOf m.mem pgdir (pdx va) = some t) (hn : t < m.npages) :
    (pgdirWalk pgdir va create).run m = .ret (some ⟨t, ptx va⟩) m := by
  obtain ⟨hp, ht⟩ := tableOf_eq_some.mp ht
  unfold pgdirWalk
  rw [Prog.run_bind_ret (readPte_eq _), if_pos hp]
  exact pgdirEntry_eq ht hn

theorem pgdirWalk_absent
    (ht : tableOf m.mem pgdir (pdx va) = none) :
    (pgdirWalk pgdir va false).run m = .ret none m := by
  unfold pgdirWalk
  rw [Prog.run_bind_ret (readPte_eq _), if_neg (tableOf_eq_none.mp ht)]
  rfl

theorem pgdirWalk_noMem
    (ht : tableOf m.mem pgdir (pdx va) = none)
    (hfree : m.pageFreeList = none) :
    (pgdirWalk pgdir va true).run m = .ret none m := by
  unfold pgdirWalk
  rw [Prog.run_bind_ret (readPte_eq _), if_neg (tableOf_eq_none.mp ht),
    if_pos rfl, Prog.run_bind_ret (pageAlloc_empty hfree)]
  rfl

theorem pgdirWalk_create
    (ht : tableOf m.mem pgdir (pdx va) = none)
    (hfree : m.pageFreeList = some t) (hn : t < m.npages)
    (hmax : m.npages ≤ 2 ^ 20) :
    (pgdirWalk pgdir va true).run m =
      .ret (some ⟨t, ptx va⟩) (m.addTable pgdir (pdx va) t) := by
  have hnum : pgnum (page2pa t ||| pteP ||| pteU ||| pteW) = t := by
    rw [BitVec.or_assoc, BitVec.or_assoc]
    exact pgnum_page2pa_or (by omega) (by decide)
  unfold pgdirWalk
  rw [Prog.run_bind_ret (readPte_eq _), if_neg (tableOf_eq_none.mp ht),
    if_pos rfl, Prog.run_bind_ret (pageAlloc_zero hfree hn hmax)]
  simp only
  rw [Prog.run_bind_ret pageIncref_eq, Prog.run_bind_ret (writePte_eq _ _)]
  have hself : (m.addTable pgdir (pdx va) t).mem pgdir (pdx va) =
      page2pa t ||| pteP ||| pteU ||| pteW := by
    simp [PhysMem.addTable, PhysMem.setWord, PhysMem.setPage]
  exact pgdirEntry_eq ((congrArg pgnum hself).trans hnum) hn

theorem pageLookup_some
    (ht : tableOf m.mem pgdir (pdx va) = some t) (hn : t < m.npages)
    (hw : entryOf m.mem pgdir (pdx va) (ptx va) = some w)
    (hp : pgnum w < m.npages) :
    (pageLookup pgdir va).run m = .ret (some (pgnum w, ⟨t, ptx va⟩)) m := by
  obtain ⟨t', ht', rfl, hpres⟩ := entryOf_eq_some.mp hw
  obtain rfl := Option.some.inj (ht.symm.trans ht')
  have hpp : (pa2page (pteAddr (m.mem t (ptx va)))).run m =
      .ret (pgnum (m.mem t (ptx va))) m := by
    rw [pa2page_eq, pgnum_pteAddr]
    rw [pgnum_pteAddr]
    exact hp
  unfold pageLookup
  rw [Prog.run_bind_ret (pgdirWalk_present ht hn)]
  simp only
  rw [Prog.run_bind_ret (readPte_eq _), if_pos hpres, Prog.run_bind_ret hpp]
  rfl

theorem pageLookup_none
    (hn : ∀ t, tableOf m.mem pgdir (pdx va) = some t → t < m.npages)
    (hw : entryOf m.mem pgdir (pdx va) (ptx va) = none) :
    (pageLookup pgdir va).run m = .ret none m := by
  unfold pageLookup
  cases ht : tableOf m.mem pgdir (pdx va) with
  | none =>
      rw [Prog.run_bind_ret (pgdirWalk_absent ht)]
      rfl
  | some t =>
      rw [entryOf_of_table ht] at hw
      have hpres : ¬ HasFlag (m.mem t (ptx va)) pteP := by
        intro hpres
        rw [if_pos hpres] at hw
        exact absurd hw (by simp)
      rw [Prog.run_bind_ret (pgdirWalk_present ht (hn t ht))]
      simp only
      rw [Prog.run_bind_ret (readPte_eq _), if_neg hpres]
      rfl

theorem pageRemove_none
    (hn : ∀ t, tableOf m.mem pgdir (pdx va) = some t → t < m.npages)
    (hw : entryOf m.mem pgdir (pdx va) (ptx va) = none) :
    (pageRemove tc pgdir va).run m = .ret () m := by
  unfold pageRemove
  rw [Prog.run_bind_ret (pageLookup_none hn hw)]
  rfl

theorem pageRemove_some
    (ht : tableOf m.mem pgdir (pdx va) = some t) (hn : t < m.npages)
    (hw : entryOf m.mem pgdir (pdx va) (ptx va) = some w)
    (hp : pgnum w < m.npages) (hlink : (m.pages (pgnum w)).ppLink = none) :
    (pageRemove tc pgdir va).run m =
      .ret () (m.clearEntry tc pgdir va (pgnum w) ⟨t, ptx va⟩) := by
  unfold pageRemove
  rw [Prog.run_bind_ret (pageLookup_some ht hn hw hp)]
  simp only
  rw [Prog.run_bind_ret (pageDecref_eq hlink)]
  exact tlbInvalidate_eq

/-- `page_insert` into an empty slot of a table. -/
theorem pageInsert_fill
    (hwalk : (pgdirWalk pgdir va true).run m = .ret (some ⟨t, ptx va⟩) m₁)
    (ht : tableOf m₁.mem pgdir (pdx va) = some t)
    (hw : entryOf m₁.mem pgdir (pdx va) (ptx va) = none) :
    (pageInsert tc pgdir pp va perm).run m = .ret 0 ((m₁.addRef pp).setWord t
      (ptx va) (page2pa pp ||| perm ||| pteP)) := by
  have hpres : ¬ HasFlag (m₁.mem t (ptx va)) pteP := by
    rw [entryOf_of_table ht] at hw
    intro hh
    rw [if_pos hh] at hw
    exact absurd hw (by simp)
  have hread : (readPte ⟨t, ptx va⟩).run (m₁.addRef pp) =
      .ret (m₁.mem t (ptx va)) (m₁.addRef pp) := rfl
  unfold pageInsert
  rw [Prog.run_bind_ret hwalk]
  simp only
  rw [Prog.run_bind_ret pageIncref_eq, Prog.run_bind_ret hread,
    Prog.run_bind_ret (Prog.run_when_false hpres),
    Prog.run_bind_ret (writePte_eq _ _)]
  rfl

/-- `page_insert` into a slot that maps another page, or the same. -/
theorem pageInsert_replace
    (hwalk : (pgdirWalk pgdir va true).run m = .ret (some ⟨t, ptx va⟩) m₁)
    (ht : tableOf m₁.mem pgdir (pdx va) = some t) (hn : t < m₁.npages)
    (hw : entryOf m₁.mem pgdir (pdx va) (ptx va) = some w)
    (hp : pgnum w < m₁.npages)
    (hlink : ((m₁.addRef pp).pages (pgnum w)).ppLink = none) :
    (pageInsert tc pgdir pp va perm).run m = .ret 0
      (((m₁.addRef pp).clearEntry tc pgdir va (pgnum w) ⟨t, ptx va⟩).setWord t
        (ptx va) (page2pa pp ||| perm ||| pteP)) := by
  obtain ⟨t', ht', hword, hpres⟩ := entryOf_eq_some.mp hw
  obtain rfl := Option.some.inj (ht.symm.trans ht')
  have hwhen : HasFlag (m₁.mem t (ptx va)) pteP := by
    rw [hword]
    exact hpres
  have hread : (readPte ⟨t, ptx va⟩).run (m₁.addRef pp) =
      .ret (m₁.mem t (ptx va)) (m₁.addRef pp) := rfl
  have hrem : (pageRemove tc pgdir va).run (m₁.addRef pp) = .ret ()
      ((m₁.addRef pp).clearEntry tc pgdir va (pgnum w) ⟨t, ptx va⟩) :=
    pageRemove_some ht hn hw hp hlink
  unfold pageInsert
  rw [Prog.run_bind_ret hwalk]
  simp only
  rw [Prog.run_bind_ret pageIncref_eq, Prog.run_bind_ret hread,
    Prog.run_bind_ret ((Prog.run_when_true hwhen).trans hrem),
    Prog.run_bind_ret (writePte_eq _ _)]
  rfl

end Computed

/-! ## Books and page tables together -/

/-- The books count the references of the directories in use, and these have
the shape of address spaces. -/
structure Accounted (managed : Set Nat) (free : List Nat) (held dirs : Finset Nat)
    (m : PhysMem) : Prop where
  ledger : Ledger managed free held (refCount m.mem dirs) m
  spaces : AddrSpaces managed dirs m.mem

/-- What no function of the allocator or of the page tables touches: pages that
are not managed, and the part of the directories above `UTOP`. -/
structure VmFrame (managed : Set Nat) (dirs : Finset Nat) (m m' : PhysMem) :
    Prop where
  npages : m'.npages = m.npages
  kernPgdir : m'.kernPgdir = m.kernPgdir
  cr3 : m'.cr3 = m.cr3
  outside : ∀ q, q ∉ managed → m'.mem q = m.mem q
  upper : ∀ d i, d ∈ dirs → userPdes ≤ i → m'.mem d i = m.mem d i

theorem VmFrame.refl (managed : Set Nat) (dirs : Finset Nat) (m : PhysMem) :
    VmFrame managed dirs m m :=
  ⟨rfl, rfl, rfl, fun _ _ => rfl, fun _ _ _ _ => rfl⟩

theorem VmFrame.trans
    {managed : Set Nat} {dirs : Finset Nat} {m m' m'' : PhysMem}
    (h : VmFrame managed dirs m m') (h' : VmFrame managed dirs m' m'') :
    VmFrame managed dirs m m'' where
  npages := h'.npages.trans h.npages
  kernPgdir := h'.kernPgdir.trans h.kernPgdir
  cr3 := h'.cr3.trans h.cr3
  outside q hq := (h'.outside q hq).trans (h.outside q hq)
  upper d i hd hi := (h'.upper d i hd hi).trans (h.upper d i hd hi)

/-- Two states that differ in the books only. -/
theorem PhysMem.BooksOnly.vmFrame
    {managed : Set Nat} {dirs : Finset Nat} {m m' : PhysMem}
    (h : PhysMem.BooksOnly m m') : VmFrame managed dirs m m' where
  npages := h.npages
  kernPgdir := h.kernPgdir
  cr3 := h.cr3
  outside q _ := by rw [h.mem]
  upper d i _ _ := by rw [h.mem]

section Specs

variable {managed : Set Nat} {free : List Nat} {held dirs : Finset Nat}
  {m m' : PhysMem} {d p t i : Nat} {va : U32} {tc : ThisCpu}

namespace Accounted

theorem table_lt
    (h : Accounted managed free held dirs m) (hd : d ∈ dirs) (hi : i < userPdes)
    (ht : tableOf m.mem d i = some t) : t < m.npages :=
  h.ledger.managed_lt t (h.spaces.table_managed d i t hd hi ht)

theorem page_lt
    (h : Accounted managed free held dirs m) (hd : d ∈ dirs) (hi : i < userPdes)
    {j : Nat} (hj : j < nptentries)
    (hp : mappedPage m.mem d i j = some p) : p < m.npages :=
  h.ledger.managed_lt p (h.spaces.page_managed d i j p hd hi hj hp)

theorem free_managed
    (h : Accounted managed free held dirs m) (hp : p ∈ free) : p ∈ managed :=
  h.ledger.pool.free_managed p hp

theorem free_unreferenced
    (h : Accounted managed free held dirs m) (hp : p ∈ free) :
    refCount m.mem dirs p = 0 :=
  h.ledger.pool.free_unreferenced hp

/-- A page without references is not a directory. -/
theorem not_dir_of_unreferenced (hp : refCount m.mem dirs p = 0) :
    p ∉ dirs := fun hd => by
  have : 0 < refCount m.mem dirs p := refCount_pos_of_dir hd
  omega

theorem not_table_of_unreferenced (hp : refCount m.mem dirs p = 0)
    {d i : Nat} (hd : d ∈ dirs) (hi : i < userPdes) :
    tableOf m.mem d i ≠ some p := fun ht => by
  have := refCount_pos_of_table hd hi ht
  omega

/-- A change that no directory notices. -/
theorem of_sameViews
    (h : Accounted managed free held dirs m)
    (hsame : SameViews dirs m.mem m'.mem)
    {free' : List Nat} {held' : Finset Nat}
    (hl : Ledger managed free' held' (refCount m.mem dirs) m') :
    Accounted managed free' held' dirs m' := by
  refine ⟨?_, hsame.addrSpaces h.spaces⟩
  rw [hsame.refCount_eq]
  exact hl

end Accounted

/-! ### `page_alloc` and `page_free` -/

/-- What a successful `page_alloc` leaves behind. -/
structure Allocated (managed : Set Nat) (free : List Nat) (held dirs : Finset Nat)
    (zero : Bool) (p : Nat) (m m' : PhysMem) : Prop where
  accounted : Accounted managed free (insert p held) dirs m'
  views : SameViews dirs m.mem m'.mem
  words : ∀ q, q ≠ p → m'.mem q = m.mem q
  zeroed : zero = true → m'.mem p = fun _ => 0#32
  frame : VmFrame managed dirs m m'

theorem pageAlloc_returns (zero : Bool)
    (h : Accounted managed free held dirs m) :
    Returns (pageAlloc zero)
      (fun r m' =>
        (free = [] ∧ r = none ∧ m' = m) ∨
        (∃ p free', free = p :: free' ∧ r = some p ∧
          Allocated managed free' held dirs zero p m m')) m := by
  rw [returns_iff]
  have hhead := h.ledger.freeList_eq
  cases hfree : free with
  | nil =>
      rw [hfree] at hhead
      exact ⟨none, m, pageAlloc_empty hhead, Or.inl ⟨rfl, rfl, rfl⟩⟩
  | cons p free' =>
      subst hfree
      have hp0 := h.free_unreferenced (List.mem_cons_self (a := p))
      have hpm := h.free_managed (List.mem_cons_self (a := p))
      have hpdir := Accounted.not_dir_of_unreferenced hp0
      have hptab : ∀ d i, d ∈ dirs → i < userPdes →
          tableOf m.mem d i ≠ some p := fun d i hd hi =>
        Accounted.not_table_of_unreferenced hp0 hd hi
      cases zero with
      | false =>
          have hsame : SameViews dirs m.mem (m.popFree p).mem :=
            sameViews_of_unused hpdir hptab (fun _ _ => rfl)
          refine ⟨some p, m.popFree p, pageAlloc_plain hhead,
            Or.inr ⟨p, free', rfl, rfl, ?_⟩⟩
          exact ⟨h.of_sameViews hsame h.ledger.popFree, hsame, fun _ _ => rfl,
            fun hf => absurd hf (by decide), (m.popFree_booksOnly p).vmFrame⟩
      | true =>
          have hwords : ∀ q, q ≠ p →
              ((m.popFree p).setPage p (fun _ => 0#32)).mem q = m.mem q := by
            intro q hq
            simp [PhysMem.setPage, hq, (m.popFree_booksOnly p).mem]
          have hsame : SameViews dirs m.mem
              ((m.popFree p).setPage p (fun _ => 0#32)).mem :=
            sameViews_of_unused hpdir hptab hwords
          refine ⟨some p, (m.popFree p).setPage p (fun _ => 0#32),
            pageAlloc_zero hhead (h.ledger.managed_lt p hpm)
              (h.ledger.npages_le.trans (by decide)),
            Or.inr ⟨p, free', rfl, rfl, ?_⟩⟩
          refine ⟨h.of_sameViews hsame (h.ledger.popFree.congr rfl rfl rfl),
            hsame, hwords, fun _ => by simp [PhysMem.setPage], rfl, rfl, rfl, ?_, ?_⟩
          · intro q hq
            exact hwords q (fun hqp => hq (hqp ▸ hpm))
          · intro d i hd _
            rw [hwords d (fun hdp => hpdir (hdp ▸ hd))]

theorem pageFree_returns
    (h : Accounted managed free held dirs m) (hp : p ∈ held) :
    Returns (pageFree p)
      (fun _ m' => m' = m.pushFree p ∧
        Accounted managed (p :: free) (held.erase p) dirs m') m := by
  have hm := h.ledger.pool.held_managed p hp
  have href : (m.pages p).ppRef = 0#16 := by
    rw [h.ledger.ref_eq p hm, h.ledger.pool.held_unreferenced p hp]
  have hlink := h.ledger.link_none p hm (h.ledger.pool.not_free_of_held hp)
  rw [returns_iff]
  exact ⟨(), m.pushFree p, pageFree_eq href hlink, rfl,
    h.ledger.pushFree hp, h.spaces⟩

/-! ### `pgdir_walk` -/

/-- A page table is there for a directory slot, and nothing else changed. -/
structure TableReady (managed : Set Nat) (free free' : List Nat)
    (held dirs : Finset Nat) (d i t : Nat) (m m' : PhysMem) : Prop where
  accounted : Accounted managed free' held dirs m'
  here : tableOf m'.mem d i = some t
  kept : ∀ t', tableOf m.mem d i = some t' → t' = t
  tables : ∀ d' i', d' ∈ dirs → i' < userPdes → ¬ (d' = d ∧ i' = i) →
    tableOf m'.mem d' i' = tableOf m.mem d' i'
  entries : ∀ d' i' j', d' ∈ dirs → i' < userPdes → j' < nptentries →
    entryOf m'.mem d' i' j' = entryOf m.mem d' i' j'
  words : ∀ q, q ≠ d → q ≠ t → m'.mem q = m.mem q
  frame : VmFrame managed dirs m m'
  free_sub : ∀ q, q ∈ free' → q ∈ free
  counts : ∀ p, refCount m'.mem dirs p ≤ max 1 (refCount m.mem dirs p)
  fresh : tableOf m.mem d i = none → t ∈ free

theorem addTable_ready
    (h : Accounted managed (t :: free) held dirs m) (hd : d ∈ dirs)
    (hi : i < userPdes) (hnone : tableOf m.mem d i = none) :
    TableReady managed (t :: free) free held dirs d i t m (m.addTable d i t) := by
  have ht0 := h.free_unreferenced (List.mem_cons_self (a := t))
  have htm := h.free_managed (List.mem_cons_self (a := t))
  have htdir := Accounted.not_dir_of_unreferenced ht0
  have htd : t ≠ d := fun hh => htdir (hh ▸ hd)
  have htheld : t ∉ held := h.ledger.pool.free_not_held List.mem_cons_self
  have htfree : t ∉ free := (List.nodup_cons.mp h.ledger.pool.nodup).1
  have hnum : pgnum (page2pa t ||| pteP ||| pteU ||| pteW) = t := by
    rw [BitVec.or_assoc, BitVec.or_assoc]
    exact pgnum_page2pa_or (h.ledger.lt_two_pow htm) (by decide)
  have hpres : HasFlag (page2pa t ||| pteP ||| pteU ||| pteW) pteP := by
    rw [hasFlag_or, hasFlag_or, hasFlag_or]
    exact Or.inl (Or.inl (Or.inr (by decide)))
  -- the page is cleared before the directory points to it
  let m₁ := (m.popFree t).setPage t (fun _ => 0#32)
  have hwords₁ : ∀ q, q ≠ t → m₁.mem q = m.mem q := by
    intro q hq
    simp [m₁, PhysMem.setPage, hq, (m.popFree_booksOnly t).mem]
  have hsame : SameViews dirs m.mem m₁.mem :=
    sameViews_of_unused htdir
      (fun d i hd hi => Accounted.not_table_of_unreferenced ht0 hd hi) hwords₁
  have hspaces₁ : AddrSpaces managed dirs m₁.mem := hsame.addrSpaces h.spaces
  have hnone₁ : tableOf m₁.mem d i = none := by
    rw [hsame.table d i hd hi, hnone]
  have hadds : AddsTable dirs d i t m₁.mem (m.addTable d i t).mem :=
    addsTable_set hspaces₁ hd hnone₁ hpres hnum htd (fun j => by
      simp [m₁, PhysMem.setPage])
  have hledger : Ledger managed free held
      (incr (refCount m.mem dirs) t) (m₁.addRef t) := by
    have hpop : Ledger managed free (insert t held) (refCount m.mem dirs) m₁ :=
      h.ledger.popFree.congr rfl rfl rfl
    rw [← Finset.erase_insert htheld]
    exact hpop.addRef htm htfree
  have hrefs : refCount (m.addTable d i t).mem dirs =
      incr (refCount m.mem dirs) t := by
    rw [hadds.refCount_eq hd hi hnone₁, hsame.refCount_eq]
  have hwords : ∀ q, q ≠ d → q ≠ t → (m.addTable d i t).mem q = m.mem q := by
    intro q hqd hqt
    have : (m.addTable d i t).mem q = m₁.mem q := by
      simp [PhysMem.addTable, PhysMem.setWord, PhysMem.setPage, m₁, hqd,
        (PhysMem.addRef_booksOnly _ t).mem]
    rw [this, hwords₁ q hqt]
  refine ⟨⟨?_, ?_⟩, hadds.here, ?_, ?_, ?_, hwords, ?_, ?_, ?_,
    fun _ => List.mem_cons_self⟩
  · rw [hrefs]
    exact hledger.congr rfl rfl rfl
  · refine hadds.addrSpaces hspaces₁ htm ?_
    rw [hsame.refCount_eq, ht0]
  · intro t' ht'
    exact absurd (hnone.symm.trans ht') (by simp)
  · intro d' i' hd' hi' hne
    rw [hadds.table d' i' hd' hi' hne, hsame.table d' i' hd' hi']
  · intro d' i' j' hd' hi' hj'
    rw [hadds.entry d' i' j' hd' hi' hj', hsame.entry d' i' j' hd' hi' hj']
  · refine ⟨rfl, rfl, rfl, ?_, ?_⟩
    · intro q hq
      exact hwords q (fun hqd => hq (hqd ▸ h.spaces.dir_managed d hd))
        (fun hqt => hq (hqt ▸ htm))
    · intro d' i' hd' hi'
      have hd't : d' ≠ t := fun hh => htdir (hh ▸ hd')
      have hne : ¬ (d' = d ∧ i' = i) := by
        rintro ⟨_, rfl⟩
        omega
      calc (m.addTable d i t).mem d' i'
          = m₁.mem d' i' := Mem.set_of_ne hne
        _ = m.mem d' i' := by rw [hwords₁ d' hd't]
  · intro q hq
    exact List.mem_cons_of_mem t hq
  · intro q
    rw [hrefs, incr]
    by_cases hqt : q = t
    · rw [hqt, Function.update_self, ht0]
      omega
    · rw [Function.update_of_ne hqt]
      omega

theorem pgdirWalk_returns
    (h : Accounted managed free held dirs m) (hd : d ∈ dirs) (hva : va < utop) :
    Returns (pgdirWalk d va true)
      (fun r m' =>
        (free = [] ∧ tableOf m.mem d (pdx va) = none ∧ r = none ∧ m' = m) ∨
        (∃ t free', r = some ⟨t, ptx va⟩ ∧
          TableReady managed free free' held dirs d (pdx va) t m m')) m := by
  have hi : pdx va < userPdes := (pdx_lt_userPdes va).mpr hva
  rw [returns_iff]
  cases ht : tableOf m.mem d (pdx va) with
  | some t =>
      refine ⟨_, m, pgdirWalk_present ht (h.table_lt hd hi ht),
        Or.inr ⟨t, free, rfl, h, ht, ?_, fun _ _ _ _ _ => rfl,
          fun _ _ _ _ _ _ => rfl, fun _ _ _ => rfl, VmFrame.refl _ _ _,
          fun _ hq => hq, fun _ => le_max_right _ _, ?_⟩⟩
      · intro t' ht'
        exact (Option.some.inj (ht.symm.trans ht')).symm
      · intro hnone
        exact absurd (ht.symm.trans hnone) (by simp)
  | none =>
      have hhead := h.ledger.freeList_eq
      cases hfree : free with
      | nil =>
          rw [hfree] at hhead
          exact ⟨none, m, pgdirWalk_noMem ht hhead, Or.inl ⟨rfl, rfl, rfl, rfl⟩⟩
      | cons t free' =>
          subst hfree
          have htm := h.free_managed (List.mem_cons_self (a := t))
          exact ⟨_, _, pgdirWalk_create ht hhead (h.ledger.managed_lt t htm)
            (h.ledger.npages_le.trans (by decide)),
            Or.inr ⟨t, free', rfl, addTable_ready h hd hi ht⟩⟩

/-! ### `page_remove` -/

/-- Dropping the reference that an entry holds, in the books. -/
theorem clearEntry_ledger
    {refs : Nat → Nat} {pte : PtePtr}
    (h : Ledger managed free held refs m) (hm : p ∈ managed)
    (h0 : 0 < refs p) (hmax : refs p ≤ 65536) :
    Ledger managed (Ledger.freeAfterDrop refs p free) held (decr refs p)
      (m.clearEntry tc d va p pte) :=
  ((h.dropRef hm h0 hmax).setWord pte.page pte.idx 0#32).congr
    PhysMem.invlpg_pages PhysMem.invlpg_pageFreeList PhysMem.invlpg_npages

/-- Clearing a table entry changes no page but the table. -/
theorem clearEntry_frame
    (hs : AddrSpaces managed dirs m.mem) (hd : d ∈ dirs) (hi : pdx va < userPdes)
    (ht : tableOf m.mem d (pdx va) = some t) :
    VmFrame managed dirs m (m.clearEntry tc d va p ⟨t, ptx va⟩) := by
  refine ⟨PhysMem.clearEntry_npages, PhysMem.clearEntry_kernPgdir,
    PhysMem.clearEntry_cr3, ?_, ?_⟩
  · intro q hq
    have hqt : q ≠ t := fun hh =>
      hq (hh ▸ hs.table_managed d (pdx va) t hd hi ht)
    rw [PhysMem.clearEntry_mem, Mem.set, Function.update_of_ne hqt]
  · intro d' i hd' _
    have hd't : d' ≠ t := fun hh =>
      hs.table_not_dir d (pdx va) t hd hi ht (hh ▸ hd')
    rw [PhysMem.clearEntry_mem, Mem.set, Function.update_of_ne hd't]

/-- What `page_remove` leaves behind: the entry is gone. -/
structure Removed (managed : Set Nat) (free : List Nat) (held dirs : Finset Nat)
    (d : Nat) (va : U32) (m m' : PhysMem) : Prop where
  accounted : Accounted managed free held dirs m'
  entry : SetsEntry dirs d (pdx va) (ptx va) 0#32 m.mem m'.mem
  words : ∀ q, tableOf m.mem d (pdx va) ≠ some q → m'.mem q = m.mem q
  frame : VmFrame managed dirs m m'
  counts : ∀ p, refCount m'.mem dirs p ≤ refCount m.mem dirs p

theorem pageRemove_returns
    (h : Accounted managed free held dirs m) (hd : d ∈ dirs) (hva : va < utop)
    (hmax : ∀ p, refCount m.mem dirs p ≤ 65535) :
    Returns (pageRemove tc d va)
      (fun _ m' => ∃ free', Removed managed free' held dirs d va m m') m := by
  have hi : pdx va < userPdes := (pdx_lt_userPdes va).mpr hva
  have hj : ptx va < nptentries := ptx_lt va
  rw [returns_iff]
  cases hw : entryOf m.mem d (pdx va) (ptx va) with
  | none =>
      refine ⟨(), m, pageRemove_none (fun t ht => h.table_lt hd hi ht) hw,
        free, h, ⟨fun _ _ _ _ => rfl, ?_, fun _ _ _ _ _ _ _ => rfl⟩,
        fun _ _ => rfl, VmFrame.refl _ _ _, fun _ => le_rfl⟩
      rw [hw, if_neg (not_hasFlag_zero pteP)]
  | some w =>
      obtain ⟨t, ht, -, -⟩ := entryOf_eq_some.mp hw
      have hpage : mappedPage m.mem d (pdx va) (ptx va) = some (pgnum w) :=
        mappedPage_eq_some.mpr ⟨w, hw, rfl⟩
      have hpm := h.spaces.page_managed d _ _ _ hd hi hj hpage
      have hpos := refCount_pos_of_page hd hi hj hpage
      have hpmax := hmax (pgnum w)
      have hlink := h.ledger.link_none _ hpm
        (h.ledger.pool.not_free_of_referenced (by omega))
      have hsets : SetsEntry dirs d (pdx va) (ptx va) 0#32 m.mem
          (m.clearEntry tc d va (pgnum w) ⟨t, ptx va⟩).mem := by
        rw [PhysMem.clearEntry_mem]
        exact setsEntry_set h.spaces hd hi ht
      refine ⟨(), _, pageRemove_some ht (h.table_lt hd hi ht) hw
        (h.page_lt hd hi hj hpage) hlink,
        Ledger.freeAfterDrop (refCount m.mem dirs) (pgnum w) free,
        ⟨?_, ?_⟩, hsets, ?_, clearEntry_frame h.spaces hd hi ht, ?_⟩
      · rw [hsets.refCount_clear hd hi hj hpage (not_hasFlag_zero pteP)]
        exact clearEntry_ledger h.ledger hpm hpos (by omega)
      · exact hsets.addrSpaces h.spaces
          (fun hh => absurd hh (not_hasFlag_zero pteP))
      · intro q hq
        have hqt : q ≠ t := fun hh => hq (hh ▸ ht)
        rw [PhysMem.clearEntry_mem, Mem.set, Function.update_of_ne hqt]
      · intro p
        rw [hsets.refCount_clear hd hi hj hpage (not_hasFlag_zero pteP)]
        exact decr_le _ _ p

/-! ### `page_insert` -/

/-- The state in which `page_insert` writes the new entry: the slot is empty,
its table is there, and the books already count the reference to come. -/
structure SlotCleared (managed : Set Nat) (free : List Nat)
    (held dirs : Finset Nat) (d : Nat) (va : U32) (t pp : Nat)
    (m m' : PhysMem) : Prop where
  ledger : Ledger managed free held (incr (refCount m'.mem dirs) pp) m'
  spaces : AddrSpaces managed dirs m'.mem
  here : tableOf m'.mem d (pdx va) = some t
  kept : ∀ t', tableOf m.mem d (pdx va) = some t' → t' = t
  empty : entryOf m'.mem d (pdx va) (ptx va) = none
  tables : ∀ d' i', d' ∈ dirs → i' < userPdes →
    ¬ (d' = d ∧ i' = pdx va) → tableOf m'.mem d' i' = tableOf m.mem d' i'
  entries : ∀ d' i' j', d' ∈ dirs → i' < userPdes → j' < nptentries →
    ¬ (d' = d ∧ i' = pdx va ∧ j' = ptx va) →
    entryOf m'.mem d' i' j' = entryOf m.mem d' i' j'
  words : ∀ q, q ≠ d → q ≠ t → m'.mem q = m.mem q
  frame : VmFrame managed dirs m m'
  fresh : tableOf m.mem d (pdx va) = none →
    refCount m.mem dirs t = 0 ∧ t ≠ pp
  counts : ∀ p, refCount m'.mem dirs p ≤ max 1 (refCount m.mem dirs p)

theorem TableReady.fresh_ne
    {m₀ m₁ : PhysMem} {free₀ free₁ : List Nat} {pp : Nat}
    (h : TableReady managed free₀ free₁ held dirs d i t m₀ m₁)
    (h₀ : Accounted managed free₀ held dirs m₀)
    (hfree : pp ∉ free₀) (hnone : tableOf m₀.mem d i = none) :
    refCount m₀.mem dirs t = 0 ∧ t ≠ pp :=
  ⟨h₀.free_unreferenced (h.fresh hnone),
    fun hh => hfree (hh ▸ h.fresh hnone)⟩

/-- The old entry of the slot is dropped after the new reference is counted.
A page that is inserted where it already was keeps a reference throughout. -/
theorem clearEntry_cleared
    (tc : ThisCpu) {m₀ m₁ : PhysMem} {free₀ free₁ : List Nat} {w : U32} {pp : Nat}
    (h₀ : Accounted managed free₀ held dirs m₀)
    (h : TableReady managed free₀ free₁ held dirs d (pdx va) t m₀ m₁)
    (hd : d ∈ dirs) (hi : pdx va < userPdes)
    (hpp : pp ∈ managed) (hfree : pp ∉ free₀)
    (hmax : ∀ p, refCount m₁.mem dirs p ≤ 65535)
    (hw : entryOf m₁.mem d (pdx va) (ptx va) = some w) :
    ∃ free', SlotCleared managed free' (held.erase pp) dirs d va t pp m₀
      ((m₁.addRef pp).clearEntry tc d va (pgnum w) ⟨t, ptx va⟩) := by
  have hj : ptx va < nptentries := ptx_lt va
  have hpage : mappedPage m₁.mem d (pdx va) (ptx va) = some (pgnum w) :=
    mappedPage_eq_some.mpr ⟨w, hw, rfl⟩
  have hpm := h.accounted.spaces.page_managed d _ _ _ hd hi hj hpage
  have hpos := refCount_pos_of_page hd hi hj hpage
  have hadd := h.accounted.ledger.addRef hpp (fun hf => hfree (h.free_sub _ hf))
  -- one more than the page tables hold, so at most 65536
  have hpos' : 0 < incr (refCount m₁.mem dirs) pp (pgnum w) :=
    Nat.lt_of_lt_of_le hpos (le_incr _ _ _)
  have hmax' : incr (refCount m₁.mem dirs) pp (pgnum w) ≤ 65536 := by
    have := hmax (pgnum w)
    rw [incr_apply]
    split <;> omega
  have hmem : ((m₁.addRef pp).clearEntry tc d va (pgnum w) ⟨t, ptx va⟩).mem =
      Mem.set m₁.mem t (ptx va) 0#32 := by
    rw [PhysMem.clearEntry_mem, (m₁.addRef_booksOnly pp).mem]
  have hsets : SetsEntry dirs d (pdx va) (ptx va) 0#32 m₁.mem
      ((m₁.addRef pp).clearEntry tc d va (pgnum w) ⟨t, ptx va⟩).mem := by
    rw [hmem]
    exact setsEntry_set h.accounted.spaces hd hi h.here
  have hrefs : decr (incr (refCount m₁.mem dirs) pp) (pgnum w) =
      incr (decr (refCount m₁.mem dirs) (pgnum w)) pp := decr_incr hpos
  refine ⟨Ledger.freeAfterDrop (incr (refCount m₁.mem dirs) pp) (pgnum w) free₁,
    ?_, ?_, ?_, h.kept, ?_, ?_, ?_, ?_, ?_, h.fresh_ne h₀ hfree, ?_⟩
  · rw [hsets.refCount_clear hd hi hj hpage (not_hasFlag_zero pteP), ← hrefs]
    exact clearEntry_ledger hadd hpm hpos' hmax'
  · exact hsets.addrSpaces h.accounted.spaces
      (fun hh => absurd hh (not_hasFlag_zero pteP))
  · rw [hsets.table d (pdx va) hd hi, h.here]
  · rw [hsets.here, if_neg (not_hasFlag_zero pteP)]
  · intro d' i' hd' hi' hne
    rw [hsets.table d' i' hd' hi', h.tables d' i' hd' hi' hne]
  · intro d' i' j' hd' hi' hj' hne
    rw [hsets.entry d' i' j' hd' hi' hj' hne, h.entries d' i' j' hd' hi' hj']
  · intro q hqd hqt
    rw [hmem, Mem.set, Function.update_of_ne hqt, h.words q hqd hqt]
  · exact (h.frame.trans (m₁.addRef_booksOnly pp).vmFrame).trans
      (clearEntry_frame (m := m₁.addRef pp) h.accounted.spaces hd hi h.here)
  · intro p
    rw [hsets.refCount_clear hd hi hj hpage (not_hasFlag_zero pteP)]
    exact (decr_le _ _ p).trans (h.counts p)

/-- An empty slot needs no clearing. -/
theorem addRef_cleared
    {m₀ m₁ : PhysMem} {free₀ free₁ : List Nat} {pp : Nat}
    (h₀ : Accounted managed free₀ held dirs m₀)
    (h : TableReady managed free₀ free₁ held dirs d (pdx va) t m₀ m₁)
    (hpp : pp ∈ managed) (hfree : pp ∉ free₀)
    (hw : entryOf m₁.mem d (pdx va) (ptx va) = none) :
    SlotCleared managed free₁ (held.erase pp) dirs d va t pp m₀
      (m₁.addRef pp) :=
  ⟨h.accounted.ledger.addRef hpp (fun hf => hfree (h.free_sub _ hf)),
    h.accounted.spaces, h.here, h.kept, hw, h.tables,
    fun d' i' j' hd' hi' hj' _ => h.entries d' i' j' hd' hi' hj', h.words,
    h.frame.trans (m₁.addRef_booksOnly pp).vmFrame, h.fresh_ne h₀ hfree,
    h.counts⟩

/-- A mapped page is on no list, also when one more reference to it is counted. -/
theorem Accounted.addRef_link {pp : Nat}
    (h : Accounted managed free held dirs m) (hd : d ∈ dirs) (hi : i < userPdes)
    {j : Nat} (hj : j < nptentries) (hp : mappedPage m.mem d i j = some p) :
    ((m.addRef pp).pages p).ppLink = none := by
  have hpos := refCount_pos_of_page hd hi hj hp
  have hlink := h.ledger.link_none _ (h.spaces.page_managed d _ _ _ hd hi hj hp)
    (h.ledger.pool.not_free_of_referenced (by omega))
  by_cases hq : p = pp
  · rw [← hq]
    simpa [PhysMem.addRef, PhysMem.setRef] using hlink
  · simpa [PhysMem.addRef, PhysMem.setRef, hq] using hlink

/-- `page_insert` with any permission word: it fails without effect for want of
a page table, or it writes one entry into a cleared slot. -/
theorem pageInsert_returns
    {pp : Nat} {perm : U32}
    (h : Accounted managed free held dirs m) (hd : d ∈ dirs) (hva : va < utop)
    (hpp : pp ∈ managed) (hfree : pp ∉ free)
    (hmax : ∀ p, refCount m.mem dirs p ≤ 65535) :
    Returns (pageInsert tc d pp va perm)
      (fun r m' =>
        (free = [] ∧ tableOf m.mem d (pdx va) = none ∧ r = -eNoMem ∧ m' = m) ∨
        (∃ t free' m₂, r = 0 ∧
          m' = m₂.setWord t (ptx va) (page2pa pp ||| perm ||| pteP) ∧
          SlotCleared managed free' (held.erase pp) dirs d va t pp m m₂)) m := by
  have hi : pdx va < userPdes := (pdx_lt_userPdes va).mpr hva
  have hj : ptx va < nptentries := ptx_lt va
  obtain ⟨r, m₁, hwalk, hready⟩ := returns_iff.mp (pgdirWalk_returns h hd hva)
  rw [returns_iff]
  rcases hready with ⟨hnil, hnone, rfl, rfl⟩ | ⟨t, free₁, rfl, hready⟩
  · refine ⟨-eNoMem, m₁, ?_, Or.inl ⟨hnil, hnone, rfl, rfl⟩⟩
    unfold pageInsert
    rw [Prog.run_bind_ret hwalk]
    rfl
  have hmax₁ : ∀ p, refCount m₁.mem dirs p ≤ 65535 := fun p =>
    (hready.counts p).trans (max_le (by decide) (hmax p))
  have hlt := hready.accounted.table_lt hd hi hready.here
  cases hw : entryOf m₁.mem d (pdx va) (ptx va) with
  | none =>
      exact ⟨0, _, pageInsert_fill hwalk hready.here hw, Or.inr ⟨t, free₁,
        m₁.addRef pp, rfl, rfl, addRef_cleared h hready hpp hfree hw⟩⟩
  | some w =>
      have hpage : mappedPage m₁.mem d (pdx va) (ptx va) = some (pgnum w) :=
        mappedPage_eq_some.mpr ⟨w, hw, rfl⟩
      obtain ⟨free', hcleared⟩ := clearEntry_cleared tc h hready hd hi hpp
        hfree hmax₁ hw
      exact ⟨0, _, pageInsert_replace hwalk hready.here hlt hw
        (hready.accounted.page_lt hd hi hj hpage)
        (hready.accounted.addRef_link hd hi hj hpage),
        Or.inr ⟨t, free', _, rfl, rfl, hcleared⟩⟩

/-- A page that may be mapped: managed, and not in use as a directory or as a
page table. -/
structure Mappable (managed : Set Nat) (dirs : Finset Nat) (mem : Mem)
    (p : Nat) : Prop where
  managed : p ∈ managed
  not_dir : p ∉ dirs
  not_table : ∀ d i, d ∈ dirs → i < userPdes → tableOf mem d i ≠ some p

/-- What a successful `page_insert` leaves behind: one entry is set. -/
structure Inserted (managed : Set Nat) (free : List Nat)
    (held dirs : Finset Nat) (d : Nat) (va : U32) (t : Nat) (w : U32)
    (m m' : PhysMem) : Prop where
  accounted : Accounted managed free held dirs m'
  table : tableOf m'.mem d (pdx va) = some t
  kept : ∀ t', tableOf m.mem d (pdx va) = some t' → t' = t
  here : entryOf m'.mem d (pdx va) (ptx va) = some w
  tables : ∀ d' i', d' ∈ dirs → i' < userPdes →
    ¬ (d' = d ∧ i' = pdx va) → tableOf m'.mem d' i' = tableOf m.mem d' i'
  entries : ∀ d' i' j', d' ∈ dirs → i' < userPdes → j' < nptentries →
    ¬ (d' = d ∧ i' = pdx va ∧ j' = ptx va) →
    entryOf m'.mem d' i' j' = entryOf m.mem d' i' j'
  words : ∀ q, q ≠ d → q ≠ t → m'.mem q = m.mem q
  frame : VmFrame managed dirs m m'
  fresh : tableOf m.mem d (pdx va) = none → refCount m.mem dirs t = 0
  counts : ∀ p, refCount m'.mem dirs p ≤
    max 1 (refCount m.mem dirs p) + (if p = pgnum w then 1 else 0)

/-- Writing a well-formed entry into the cleared slot settles the books. -/
theorem SlotCleared.write
    {m₂ : PhysMem} {free₂ : List Nat} {pp : Nat} {w : U32}
    (h : SlotCleared managed free₂ held dirs d va t pp m m₂)
    (hd : d ∈ dirs) (hva : va < utop)
    (hpp : Mappable managed dirs m.mem pp)
    (hw : HasFlag w pteP) (hnum : pgnum w = pp) :
    Inserted managed free₂ held dirs d va t w m (m₂.setWord t (ptx va) w) := by
  have hi : pdx va < userPdes := (pdx_lt_userPdes va).mpr hva
  have hj : ptx va < nptentries := ptx_lt va
  have hsets : SetsEntry dirs d (pdx va) (ptx va) w m₂.mem
      (m₂.setWord t (ptx va) w).mem := setsEntry_set h.spaces hd hi h.here
  have hnotTable : ∀ d' i', d' ∈ dirs → i' < userPdes →
      tableOf m₂.mem d' i' ≠ some pp := by
    intro d' i' hd' hi' ht'
    by_cases hne : d' = d ∧ i' = pdx va
    · obtain ⟨rfl, rfl⟩ := hne
      obtain rfl := Option.some.inj (h.here.symm.trans ht')
      cases hold : tableOf m.mem d' (pdx va) with
      | none => exact (h.fresh hold).2 rfl
      | some t' =>
          obtain rfl := h.kept t' hold
          exact hpp.not_table d' (pdx va) hd' hi' hold
    · rw [h.tables d' i' hd' hi' hne] at ht'
      exact hpp.not_table d' i' hd' hi' ht'
  have hrefs := hsets.refCount_fill hd hi hj h.empty hw
  refine ⟨⟨?_, ?_⟩, ?_, h.kept, ?_, ?_, ?_, ?_, ?_, fun hn => (h.fresh hn).1,
    ?_⟩
  · rw [hrefs, hnum]
    exact h.ledger.setWord t (ptx va) w
  · refine hsets.addrSpaces h.spaces (fun _ => ?_)
    rw [hnum]
    exact ⟨hpp.managed, hpp.not_dir, hnotTable⟩
  · rw [hsets.table d (pdx va) hd hi, h.here]
  · rw [hsets.here, if_pos hw]
  · intro d' i' hd' hi' hne
    rw [hsets.table d' i' hd' hi', h.tables d' i' hd' hi' hne]
  · intro d' i' j' hd' hi' hj' hne
    rw [hsets.entry d' i' j' hd' hi' hj' hne, h.entries d' i' j' hd' hi' hj' hne]
  · intro q hqd hqt
    rw [← h.words q hqd hqt]
    exact Function.update_of_ne hqt _ _
  · have htm : t ∈ managed := h.spaces.table_managed d (pdx va) t hd hi h.here
    refine h.frame.trans ⟨rfl, rfl, rfl, ?_, ?_⟩
    · intro q hq
      have hqt : q ≠ t := fun hh => hq (hh ▸ htm)
      exact Function.update_of_ne hqt _ _
    · intro d' i' hd' _
      have hd't : d' ≠ t := fun hh =>
        h.spaces.table_not_dir d (pdx va) t hd hi h.here (hh ▸ hd')
      exact congrFun (Function.update_of_ne hd't _ _) i'
  · intro p
    have hle := h.counts p
    rw [hrefs, incr]
    by_cases hp : p = pgnum w
    · rw [if_pos hp, hp, Function.update_self]
      rw [hp] at hle
      omega
    · rw [if_neg hp, Function.update_of_ne hp]
      omega

/-- The entry that `page_insert` builds from a page and a permission word
points to the page. -/
def PermFits (perm : U32) (pp : Nat) : Prop :=
  pgnum (page2pa pp ||| perm ||| pteP) = pp

/-- Permissions that stay within the flag bits fit every page. -/
theorem permFits_of_lt {pp : Nat} {perm : U32}
    (hpp : pp < 2 ^ 20) (hperm : perm.toNat < 4096) : PermFits perm pp := by
  have hor : (perm ||| pteP).toNat < 4096 := by
    rw [BitVec.toNat_or]
    exact Nat.or_lt_two_pow (n := 12) hperm (by decide)
  unfold PermFits
  rw [BitVec.or_assoc]
  exact pgnum_page2pa_or hpp hor

/-- `page_insert` with a permission word that fits the page. -/
theorem pageInsert_inserts
    {pp : Nat} {perm : U32}
    (h : Accounted managed free held dirs m) (hd : d ∈ dirs) (hva : va < utop)
    (hpp : Mappable managed dirs m.mem pp) (hfree : pp ∉ free)
    (hperm : PermFits perm pp)
    (hmax : ∀ p, refCount m.mem dirs p ≤ 65535) :
    Returns (pageInsert tc d pp va perm)
      (fun r m' =>
        (free = [] ∧ tableOf m.mem d (pdx va) = none ∧ r = -eNoMem ∧ m' = m) ∨
        (r = 0 ∧ ∃ t free', Inserted managed free' (held.erase pp) dirs d va t
          (page2pa pp ||| perm ||| pteP) m m')) m := by
  refine (pageInsert_returns h hd hva hpp.managed hfree hmax).mono ?_
  rintro r m' (hfail | ⟨t, free', m₂, rfl, rfl, hcleared⟩)
  · exact Or.inl hfail
  · exact Or.inr ⟨rfl, t, free', hcleared.write hd hva hpp (hasFlag_or_pteP _)
      hperm⟩

end Specs

end Jos

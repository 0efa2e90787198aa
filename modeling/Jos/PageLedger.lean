import Jos.Lib.RefPool
import Jos.Pmap

/-!
# The page allocator keeps its books

The `pages` array and `page_free_list` implement a pool of reference-counted
pages.  `Ledger` ties them to the abstract pool: the free list is a linked
list of exactly the free pages, `pp_ref` is the number of references modulo
`2 ^ 16`, and a page that is not on the list has no link.

Each function of the allocator is shown to compute a change of state
(`popFree`, `pushFree`, `addRef`, `dropRef`) that carries a ledger to the ledger
of the corresponding operation on the pool.  None of these changes touches the
contents of memory.
-/

namespace Jos

open Programs LinkedList RefPool

/-! ## Addresses of pages -/

theorem page2pa_toNat {pp : Nat} (h : pp < 2 ^ 20) :
    (page2pa pp).toNat = pp * 4096 := by
  unfold page2pa
  rw [BitVec.toNat_shiftLeft, BitVec.toNat_ofNat, Nat.shiftLeft_eq]
  omega

theorem pgnum_page2pa {pp : Nat} (h : pp < 2 ^ 20) :
    pgnum (page2pa pp) = pp := by
  rw [pgnum_eq, page2pa_toNat h]
  omega

theorem pgnum_page2pa_le (pp : Nat) : pgnum (page2pa pp) ≤ pp := by
  rw [pgnum_eq]
  unfold page2pa
  rw [BitVec.toNat_shiftLeft, BitVec.toNat_ofNat, Nat.shiftLeft_eq]
  omega

/-- An entry built from a page and flags points to that page. -/
theorem pgnum_page2pa_or {pp : Nat} {perm : U32}
    (h : pp < 2 ^ 20) (hperm : perm.toNat < 4096) :
    pgnum (page2pa pp ||| perm) = pp := by
  have hpa := page2pa_toNat h
  rw [pgnum_or_of_lt (by omega) hperm, pgnum_page2pa h]

/-- An address of a page has no flags. -/
theorem not_hasFlag_page2pa {p : Nat} {f : U32} (hf : f.toNat < 4096) :
    ¬ HasFlag (page2pa p) f := by
  have hzero : page2pa p &&& f = 0#32 := by
    apply BitVec.eq_of_toNat_eq
    unfold page2pa
    rw [BitVec.toNat_and, BitVec.toNat_shiftLeft, BitVec.toNat_ofNat,
      Nat.shiftLeft_eq, BitVec.toNat_ofNat]
    have hmod : p % 2 ^ 32 * 2 ^ 12 % 2 ^ 32 = (p % 2 ^ 20) <<< 12 := by
      rw [Nat.shiftLeft_eq]
      omega
    rw [hmod]
    apply Nat.eq_of_testBit_eq
    intro n
    rw [Nat.testBit_and, Nat.testBit_shiftLeft]
    by_cases hn : 12 ≤ n
    · have : f.toNat.testBit n = false :=
        Nat.testBit_lt_two_pow (Nat.lt_of_lt_of_le hf
          (Nat.pow_le_pow_right (by decide) hn : 2 ^ 12 ≤ 2 ^ n))
      simp [this]
    · simp [hn]
  exact fun h => h hzero

theorem kaddr_eq {m : PhysMem} {pa : U32} (h : pgnum pa < m.npages) :
    (kaddr pa).run m = .ret (pgnum pa) m := by
  unfold kaddr
  rw [Prog.run_bind]
  simp [Prog.get, Nat.not_le.mpr h]

theorem pa2page_eq {m : PhysMem} {pa : U32} (h : pgnum pa < m.npages) :
    (pa2page pa).run m = .ret (pgnum pa) m := kaddr_eq h

/-! ## Changes of state -/

namespace PhysMem

/-- The first page leaves the free list. -/
def popFree (m : PhysMem) (p : Nat) : PhysMem :=
  (m.setFreeList (m.pages p).ppLink).setLink p none

/-- A page is put on the free list. -/
def pushFree (m : PhysMem) (p : Nat) : PhysMem :=
  (m.setLink p m.pageFreeList).setFreeList (some p)

def addRef (m : PhysMem) (p : Nat) : PhysMem :=
  m.setRef p ((m.pages p).ppRef + 1#16)

/-- A reference is counted down, and the page freed if it was the last. -/
def dropRef (m : PhysMem) (p : Nat) : PhysMem :=
  if (m.pages p).ppRef - 1#16 = 0#16 then
    (m.setRef p ((m.pages p).ppRef - 1#16)).pushFree p
  else
    m.setRef p ((m.pages p).ppRef - 1#16)

/-- `m'` differs from `m` at most in the `pages` array and its free list. -/
structure BooksOnly (m m' : PhysMem) : Prop where
  mem : m'.mem = m.mem
  npages : m'.npages = m.npages
  kernPgdir : m'.kernPgdir = m.kernPgdir
  userMemCheckAddr : m'.userMemCheckAddr = m.userMemCheckAddr
  cr3 : m'.cr3 = m.cr3
  tlb : m'.tlb = m.tlb

theorem popFree_booksOnly (m : PhysMem) (p : Nat) :
    BooksOnly m (m.popFree p) := ⟨rfl, rfl, rfl, rfl, rfl, rfl⟩

theorem pushFree_booksOnly (m : PhysMem) (p : Nat) :
    BooksOnly m (m.pushFree p) := ⟨rfl, rfl, rfl, rfl, rfl, rfl⟩

theorem addRef_booksOnly (m : PhysMem) (p : Nat) :
    BooksOnly m (m.addRef p) := ⟨rfl, rfl, rfl, rfl, rfl, rfl⟩

theorem dropRef_booksOnly (m : PhysMem) (p : Nat) :
    BooksOnly m (m.dropRef p) := by
  unfold dropRef
  split <;> exact ⟨rfl, rfl, rfl, rfl, rfl, rfl⟩

section FreeList

variable {m : PhysMem} {free : List Nat} {p : Nat}

theorem popFree_link (q : Nat) :
    ((m.popFree p).pages q).ppLink = if q = p then none else (m.pages q).ppLink := by
  by_cases hq : q = p
  · subst hq
    simp [popFree, setLink]
  · simp [popFree, setLink, setFreeList, hq]

theorem pushFree_link (q : Nat) :
    ((m.pushFree p).pages q).ppLink = if q = p then m.pageFreeList else (m.pages q).ppLink := by
  by_cases hq : q = p
  · subst hq
    simp [pushFree, setLink, setFreeList]
  · simp [pushFree, setLink, setFreeList, hq]

theorem popFree_ref (q : Nat) : ((m.popFree p).pages q).ppRef = (m.pages q).ppRef := by
  by_cases hq : q = p
  · subst hq
    simp [popFree, setLink, setFreeList]
  · simp [popFree, setLink, setFreeList, hq]

theorem pushFree_ref (q : Nat) : ((m.pushFree p).pages q).ppRef = (m.pages q).ppRef := by
  by_cases hq : q = p
  · subst hq
    simp [pushFree, setLink, setFreeList]
  · simp [pushFree, setLink, setFreeList, hq]

/-- Behind the first page comes the rest of the list. -/
theorem popFree_chain
    (h : Chain (fun q => (m.pages q).ppLink) m.pageFreeList (p :: free)) :
    Chain (fun q => ((m.popFree p).pages q).ppLink) (m.popFree p).pageFreeList free := by
  have hp : p ∉ free := (List.nodup_cons.mp h.nodup).1
  refine h.2.congr (fun q hq => ?_)
  rw [popFree_link, if_neg]
  rintro rfl
  exact hp hq

/-- Putting a page that is not on the free list there. -/
theorem pushFree_chain
    (h : Chain (fun q => (m.pages q).ppLink) m.pageFreeList free) (hp : p ∉ free) :
    Chain (fun q => ((m.pushFree p).pages q).ppLink)
      (m.pushFree p).pageFreeList (p :: free) := by
  refine (h.push hp).congr (fun q _ => ?_)
  rw [pushFree_link, Function.update_apply]

end FreeList

end PhysMem

/-! ## What the functions compute -/

section Computed

variable {m : PhysMem} {p : Nat}

theorem pageAlloc_empty {allocZero : Bool} (h : m.pageFreeList = none) :
    (pageAlloc allocZero).run m = .ret none m := by
  unfold pageAlloc
  rw [Prog.run_bind]
  simp [Prog.get, h]

theorem pageAlloc_plain (h : m.pageFreeList = some p) :
    (pageAlloc false).run m = .ret (some p) (m.popFree p) := by
  unfold pageAlloc
  rw [Prog.run_bind]
  simp only [Prog.get, h]
  rfl

theorem page2kva_eq (hp : p < m.npages) :
    (page2kva p).run m = .ret (pgnum (page2pa p)) m :=
  kaddr_eq (Nat.lt_of_le_of_lt (pgnum_page2pa_le p) hp)

theorem pageAlloc_cleared (h : m.pageFreeList = some p) (hp : p < m.npages) :
    (pageAlloc true).run m =
      .ret (some p) ((m.popFree p).setPage (pgnum (page2pa p)) (fun _ => 0#32)) := by
  have hkva : (page2kva p).run (m.popFree p) = .ret (pgnum (page2pa p)) (m.popFree p) :=
    page2kva_eq hp
  unfold pageAlloc
  rw [Prog.run_bind]
  simp only [Prog.get, h]
  rw [Prog.run_bind_ret (t := m.setFreeList (m.pages p).ppLink) rfl,
    Prog.run_bind_ret (t := m.popFree p) rfl]
  simp only [if_true]
  rw [Prog.run_bind_ret hkva]
  rfl

theorem pageAlloc_zero
    (h : m.pageFreeList = some p) (hp : p < m.npages)
    (hn : m.npages ≤ 2 ^ 20) :
    (pageAlloc true).run m =
      .ret (some p) ((m.popFree p).setPage p (fun _ => 0#32)) := by
  rw [pageAlloc_cleared h hp, pgnum_page2pa (by omega)]

/-- `page_alloc` takes the first page off the list. -/
theorem pageAlloc_ret {zero : Bool} {r : Option Nat} {m' : PhysMem}
    (h : (pageAlloc zero).run m = .ret r m') :
    (r = none ∧ m' = m) ∨ ∃ p, r = some p ∧ m.pageFreeList = some p ∧
      m'.pages = (m.popFree p).pages ∧ m'.pageFreeList = (m.popFree p).pageFreeList := by
  cases hlist : m.pageFreeList with
  | none =>
      rw [pageAlloc_empty hlist] at h
      cases h
      exact Or.inl ⟨rfl, rfl⟩
  | some q =>
      refine Or.inr ⟨q, ?_⟩
      have hwp : wp (pageAlloc zero) (Partial (fun r m' => r = some q ∧
          m'.pages = (m.popFree q).pages ∧ m'.pageFreeList = (m.popFree q).pageFreeList)
          (fun _ => True)) m := by
        unfold pageAlloc
        rw [wp_get_bind, hlist]
        dsimp only
        rw [wp_modify_bind, wp_modify_bind]
        refine wp_ite (fun _ => ?_) (fun _ => ⟨rfl, rfl, rfl⟩)
        refine (wp_bind _ _ _).mpr ?_
        unfold page2kva kaddr
        rw [wp_get_bind]
        exact wp_ite (fun _ => trivial) (fun _ => ⟨rfl, rfl, rfl⟩)
      obtain ⟨hr, hpages, hhead⟩ := wp_ret hwp h
      exact ⟨hr, rfl, hpages, hhead⟩

/-- `page_free` looks at the page's own link only. -/
theorem pageFree_run : (pageFree p).run m =
    if (m.pages p).ppRef ≠ 0#16 ∨ (m.pages p).ppLink ≠ none then .stop m
    else .ret () (m.pushFree p) := by
  unfold pageFree
  rw [Prog.run_bind, Prog.run_get]
  dsimp only
  split
  · rfl
  · rfl

theorem pageFree_eq
    (href : (m.pages p).ppRef = 0#16) (hlink : (m.pages p).ppLink = none) :
    (pageFree p).run m = .ret () (m.pushFree p) := by
  rw [pageFree_run, href, hlink]
  exact if_neg (by simp)

theorem pageIncref_eq : (pageIncref p).run m = .ret () (m.addRef p) := rfl

theorem pageDecref_eq (hlink : (m.pages p).ppLink = none) :
    (pageDecref p).run m = .ret () (m.dropRef p) := by
  unfold pageDecref
  rw [Prog.run_bind_ret (t := m.setRef p ((m.pages p).ppRef - 1#16)) rfl,
    Prog.run_bind_ret (a := m.setRef p ((m.pages p).ppRef - 1#16)) rfl]
  have href : ((m.setRef p ((m.pages p).ppRef - 1#16)).pages p).ppRef =
      (m.pages p).ppRef - 1#16 := by
    simp [PhysMem.setRef]
  unfold PhysMem.dropRef Prog.when
  rw [href]
  split
  · rename_i h0
    refine pageFree_eq ?_ ?_
    · rw [href, h0]
    · simp [PhysMem.setRef, hlink]
  · rfl

end Computed

/-! ## The ledger -/

/-- The `pages` array and the free list keep the books of a pool of pages. -/
structure Ledger (managed : Set Nat) (free : List Nat) (held : Finset Nat)
    (refs : Nat → Nat) (m : PhysMem) : Prop where
  chain : Chain (fun p => (m.pages p).ppLink) m.pageFreeList free
  pool : Pool managed free held refs
  ref_eq : ∀ p, p ∈ managed → (m.pages p).ppRef = BitVec.ofNat 16 (refs p)
  link_none : ∀ p, p ∈ managed → p ∉ free → (m.pages p).ppLink = none
  managed_lt : ∀ p, p ∈ managed → p < m.npages
  npages_le : m.npages ≤ 65536

namespace Ledger

variable {managed : Set Nat} {free : List Nat} {held : Finset Nat}
  {refs : Nat → Nat} {m m' : PhysMem} {p : Nat}

/-- The books do not depend on the contents of memory. -/
theorem congr
    (h : Ledger managed free held refs m)
    (hpages : m'.pages = m.pages) (hlist : m'.pageFreeList = m.pageFreeList)
    (hn : m'.npages = m.npages) :
    Ledger managed free held refs m' where
  chain := by
    rw [hpages, hlist]
    exact h.chain
  pool := h.pool
  ref_eq := by
    rw [hpages]
    exact h.ref_eq
  link_none := by
    rw [hpages]
    exact h.link_none
  managed_lt := by
    rw [hn]
    exact h.managed_lt
  npages_le := by
    rw [hn]
    exact h.npages_le

theorem setWord (h : Ledger managed free held refs m) (q i : Nat) (w : U32) :
    Ledger managed free held refs (m.setWord q i w) := h.congr rfl rfl rfl

theorem lt_two_pow
    (h : Ledger managed free held refs m) (hp : p ∈ managed) :
    p < 2 ^ 20 := by
  have := h.managed_lt p hp
  have := h.npages_le
  omega

/-- The head of the free list is its first page. -/
theorem freeList_eq (h : Ledger managed free held refs m) :
    m.pageFreeList = free.head? := by
  cases free with
  | nil => exact h.chain
  | cons p free => exact h.chain.1

theorem popFree (h : Ledger managed (p :: free) held refs m) :
    Ledger managed free (insert p held) refs (m.popFree p) where
  chain := PhysMem.popFree_chain h.chain
  pool := h.pool.alloc
  ref_eq q hq := (PhysMem.popFree_ref q).trans (h.ref_eq q hq)
  link_none q hq hfree := by
    rw [PhysMem.popFree_link]
    split
    · rfl
    · rename_i hqp
      exact h.link_none q hq (by simp [hqp, hfree])
  managed_lt := h.managed_lt
  npages_le := h.npages_le

theorem pushFree
    (h : Ledger managed free held refs m) (hp : p ∈ held) :
    Ledger managed (p :: free) (held.erase p) refs (m.pushFree p) where
  chain := PhysMem.pushFree_chain h.chain (h.pool.not_free_of_held hp)
  pool := h.pool.drop hp
  ref_eq q hq := (PhysMem.pushFree_ref q).trans (h.ref_eq q hq)
  link_none q hq hfree := by
    rw [List.mem_cons, not_or] at hfree
    rw [PhysMem.pushFree_link, if_neg hfree.1]
    exact h.link_none q hq hfree.2
  managed_lt := h.managed_lt
  npages_le := h.npages_le

/-- Changing one counter to what the new number of references says. -/
private theorem setRef_ref_eq
    (h : ∀ q, q ∈ managed → (m.pages q).ppRef = BitVec.ofNat 16 (refs q))
    {n : Nat} {r : U16} (hr : r = BitVec.ofNat 16 n) (q : Nat)
    (hq : q ∈ managed) :
    ((m.setRef p r).pages q).ppRef =
      BitVec.ofNat 16 (Function.update refs p n q) := by
  by_cases hqp : q = p
  · subst hqp
    simp [PhysMem.setRef, hr]
  · simp [PhysMem.setRef, hqp, h q hq]

private theorem setRef_link (r : U16) (q : Nat) :
    ((m.setRef p r).pages q).ppLink = (m.pages q).ppLink := by
  by_cases hqp : q = p
  · subst hqp
    simp [PhysMem.setRef]
  · simp [PhysMem.setRef, hqp]

theorem addRef
    (h : Ledger managed free held refs m) (hm : p ∈ managed)
    (hp : p ∉ free) :
    Ledger managed free (held.erase p) (incr refs p) (m.addRef p) where
  chain := h.chain.congr (fun q _ => setRef_link _ q)
  pool := h.pool.retain hp
  ref_eq := by
    refine setRef_ref_eq h.ref_eq ?_
    rw [h.ref_eq p hm, BitVec.ofNat_add]
  link_none q hq hfree := (setRef_link _ q).trans (h.link_none q hq hfree)
  managed_lt := h.managed_lt
  npages_le := h.npages_le

/-- The counter reaches zero with the last reference, as long as it has not
wrapped more than once. -/
private theorem ofNat_sub_one_eq_zero {n : Nat} (h0 : 0 < n) (h : n ≤ 65536) :
    BitVec.ofNat 16 n - 1#16 = BitVec.ofNat 16 (n - 1) ∧
      (BitVec.ofNat 16 (n - 1) = 0#16 ↔ n = 1) := by
  constructor
  · apply BitVec.eq_of_toNat_eq
    rw [BitVec.toNat_sub, BitVec.toNat_ofNat, BitVec.toNat_ofNat,
      BitVec.toNat_ofNat]
    omega
  · rw [← BitVec.toNat_inj, BitVec.toNat_ofNat, BitVec.toNat_ofNat]
    omega

/-- The free list after a reference to `p` is dropped. -/
def freeAfterDrop (refs : Nat → Nat) (p : Nat) (free : List Nat) : List Nat :=
  if refs p = 1 then p :: free else free

theorem dropRef
    (h : Ledger managed free held refs m) (hm : p ∈ managed)
    (h0 : 0 < refs p) (hmax : refs p ≤ 65536) :
    Ledger managed (freeAfterDrop refs p free) held (decr refs p)
      (m.dropRef p) := by
  have hp : p ∉ free := h.pool.not_free_of_referenced (by omega)
  obtain ⟨hsub, hzero⟩ := ofNat_sub_one_eq_zero h0 hmax
  have href : (m.pages p).ppRef - 1#16 = BitVec.ofNat 16 (refs p - 1) := by
    rw [h.ref_eq p hm, hsub]
  have hchain : Chain
      (fun q => ((m.setRef p ((m.pages p).ppRef - 1#16)).pages q).ppLink)
      (m.setRef p ((m.pages p).ppRef - 1#16)).pageFreeList free :=
    h.chain.congr (fun q _ => setRef_link _ q)
  have hrefs := setRef_ref_eq (p := p) h.ref_eq href
  have hlast : (m.pages p).ppRef - 1#16 = 0#16 ↔ refs p = 1 := by
    rw [href]
    exact hzero
  unfold PhysMem.dropRef freeAfterDrop
  simp only [hlast]
  by_cases h1 : refs p = 1
  · rw [if_pos h1, if_pos h1]
    refine ⟨PhysMem.pushFree_chain hchain hp, h.pool.release_last hm h1, ?_, ?_,
      h.managed_lt, h.npages_le⟩
    · exact fun q hq => (PhysMem.pushFree_ref q).trans (hrefs q hq)
    · intro q hq hfree
      rw [List.mem_cons, not_or] at hfree
      rw [PhysMem.pushFree_link, if_neg hfree.1, setRef_link]
      exact h.link_none q hq hfree.2
  · rw [if_neg h1, if_neg h1]
    exact ⟨hchain, h.pool.release_shared (by omega), hrefs,
      fun q hq hfree => (setRef_link _ q).trans (h.link_none q hq hfree),
      h.managed_lt, h.npages_le⟩

end Ledger

end Jos

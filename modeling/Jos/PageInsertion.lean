import Jos.RefCounts

/-!
# What one `page_insert` does

`PageInsertDone` says everything that a call of `page_insert` is for: when it
fails, the one translation that changes when it does not, and the counter of
every page.  One code path does it all: it takes the new reference before it
drops the old one, so a page that is inserted where it already was is never
freed in between.

The call does what it is for except for a page with 65535 references, whose
counter wraps when it is mapped once more (`page_insert_done`).
-/

namespace Jos

open Programs LinkedList RefPool

/-- Page `p` is on the free list. -/
def PhysMem.IsFree (m : PhysMem) (p : Nat) : Prop :=
  ∃ free, Chain (fun p => (m.pages p).ppLink) m.pageFreeList free ∧ p ∈ free

/-- The page that `va` is mapped to. -/
def PhysMem.pageAt (m : PhysMem) (pgdir : Nat) (va : U32) : Option Nat :=
  mappedPage m.mem pgdir (pdx va) (ptx va)

/-- The page table for `va` is missing, and no page is free. -/
def PhysMem.NoTable (m : PhysMem) (pgdir : Nat) (va : U32) : Prop :=
  tableOf m.mem pgdir (pdx va) = none ∧ m.pageFreeList = none

/-- Page `pp` is mapped at `va`, no other translation changed, and every counter
moved by the references that came and went. -/
structure PageMapped (dirs : Finset Nat) (pgdir pp : Nat) (va perm : U32)
    (m m' : PhysMem) : Prop where
  entry : entryOf m'.mem pgdir (pdx va) (ptx va) =
    some (page2pa pp ||| perm ||| pteP)
  others : ∀ d i j, d ∈ dirs → i < userPdes → j < nptentries →
    ¬ (d = pgdir ∧ i = pdx va ∧ j = ptx va) →
    entryOf m'.mem d i j = entryOf m.mem d i j
  dirWords : ∀ d i, d ∈ dirs → i < userPdes →
    ¬ (d = pgdir ∧ i = pdx va ∧ tableOf m.mem d i = none) →
    m'.mem d i = m.mem d i
  kept : ¬ m'.IsFree pp
  ref : (m'.pages pp).ppRef.toNat + (if m.pageAt pgdir va = some pp then 1 else 0) =
    (m.pages pp).ppRef.toNat + 1
  former : ∀ p, p ≠ pp → m.pageAt pgdir va = some p →
    (m'.pages p).ppRef.toNat + 1 = (m.pages p).ppRef.toNat ∧
    (m'.IsFree p ↔ (m.pages p).ppRef = 1#16)
  table : tableOf m.mem pgdir (pdx va) = none → ∃ t, m.pageFreeList = some t ∧
    tableOf m'.mem pgdir (pdx va) = some t ∧ (m'.pages t).ppRef = 1#16
  rest : ∀ p, p ≠ pp → m.pageAt pgdir va ≠ some p →
    ¬ (tableOf m.mem pgdir (pdx va) = none ∧ m.pageFreeList = some p) →
    (m'.pages p).ppRef = (m.pages p).ppRef

/-- A call of `page_insert` that returned `r` did what it is for. -/
structure PageInsertDone (dirs : Finset Nat) (pgdir pp : Nat) (va perm : U32)
    (m : PhysMem) (r : Int) (m' : PhysMem) : Prop where
  noMem : r = -eNoMem ↔ m.NoTable pgdir va
  unchanged : r = -eNoMem → m' = m
  mapped : r ≠ -eNoMem → r = 0 ∧ PageMapped dirs pgdir pp va perm m m'

/-- The counter of `pp` has room for the call: it is not at its largest value, or
the call adds no mapping of `pp`. -/
def PhysMem.RefFits (m : PhysMem) (pgdir pp : Nat) (va : U32) : Prop :=
  (m.pages pp).ppRef ≠ 0xFFFF#16 ∨ m.pageAt pgdir va = some pp ∨ m.NoTable pgdir va

/-! ## The state it leaves -/

namespace PhysMem

variable {m : PhysMem} {tc : ThisCpu} {pgdir t i p q : Nat} {va w : U32}
  {pte : PtePtr}

theorem addRef_ppRef : ((m.addRef p).pages q).ppRef =
    if q = p then (m.pages p).ppRef + 1#16 else (m.pages q).ppRef := by
  by_cases hq : q = p
  · subst hq
    simp [addRef, setRef]
  · simp [addRef, setRef, hq]

theorem dropRef_ppRef : ((m.dropRef p).pages q).ppRef =
    if q = p then (m.pages p).ppRef - 1#16 else (m.pages q).ppRef := by
  unfold dropRef
  by_cases hq : q = p
  · subst hq
    split <;> simp [setRef, pushFree, setLink, setFreeList, *]
  · split <;> simp [setRef, pushFree, setLink, setFreeList, hq]

theorem clearEntry_ppRef : ((m.clearEntry tc pgdir va p pte).pages q).ppRef =
    if q = p then (m.pages p).ppRef - 1#16 else (m.pages q).ppRef := by
  rw [clearEntry, invlpg_pages]
  exact dropRef_ppRef

theorem addTable_ppRef : ((m.addTable pgdir i t).pages q).ppRef =
    if q = t then (m.pages t).ppRef + 1#16 else (m.pages q).ppRef := by
  have hpop : ∀ q, ((m.popFree t).pages q).ppRef = (m.pages q).ppRef := by
    intro q
    by_cases hq : q = t
    · subst hq
      simp [popFree, setLink, setFreeList]
    · simp [popFree, setLink, setFreeList, hq]
  have hadd := addRef_ppRef (m := (m.popFree t).setPage t (fun _ => 0#32)) (p := t)
    (q := q)
  refine hadd.trans ?_
  simp only [setPage, hpop]

end PhysMem

/-! ## The counters -/

/-- How a successful `page_insert` moves the counters, which are 16 bits wide. -/
structure RefsMoved (pgdir pp : Nat) (va : U32) (m m' : PhysMem) : Prop where
  dirWords : ∀ i, ¬ (i = pdx va ∧ tableOf m.mem pgdir i = none) →
    m'.mem pgdir i = m.mem pgdir i
  ref : (m'.pages pp).ppRef = if m.pageAt pgdir va = some pp then
    (m.pages pp).ppRef else (m.pages pp).ppRef + 1#16
  former : ∀ p, p ≠ pp → m.pageAt pgdir va = some p →
    (m'.pages p).ppRef = (m.pages p).ppRef - 1#16
  table : tableOf m.mem pgdir (pdx va) = none → ∃ t, m.pageFreeList = some t ∧
    tableOf m'.mem pgdir (pdx va) = some t ∧ (m'.pages t).ppRef = 1#16
  rest : ∀ p, p ≠ pp → m.pageAt pgdir va ≠ some p →
    ¬ (tableOf m.mem pgdir (pdx va) = none ∧ m.pageFreeList = some p) →
    (m'.pages p).ppRef = (m.pages p).ppRef

section Moves

variable {managed : Set Nat} {free : List Nat} {held dirs : Finset Nat}
  {m : PhysMem} {tc : ThisCpu} {d pp t : Nat} {va perm w : U32}

/-- With a page table made on demand. -/
theorem pageInsert_moves_create
    (h : Accounted managed free held dirs m) (hd : d ∈ dirs) (hva : va < utop)
    (hfree : pp ∉ free) (hnone : tableOf m.mem d (pdx va) = none)
    (hlist : m.pageFreeList = some t) :
    ∃ m', (pageInsert tc d pp va perm).run m = .ret 0 m' ∧ RefsMoved d pp va m m' := by
  have hi : pdx va < userPdes := (pdx_lt_userPdes va).mpr hva
  obtain ⟨free', rfl⟩ : ∃ free', free = t :: free' :=
    List.head?_eq_some_iff.mp (h.ledger.freeList_eq.symm.trans hlist)
  have ht := List.mem_cons_self (a := t) (l := free')
  have htm := h.free_managed ht
  have ht0 := h.free_unreferenced ht
  have htpp : t ≠ pp := fun hh => hfree (hh ▸ ht)
  have htd : d ≠ t := fun hh => Accounted.not_dir_of_unreferenced ht0 (hh ▸ hd)
  have hready := addTable_ready h hd hi hnone
  have hat : m.pageAt d va = none := by
    unfold PhysMem.pageAt mappedPage
    rw [entryOf_of_no_table hnone]
    rfl
  have hw : entryOf (m.addTable d (pdx va) t).mem d (pdx va) (ptx va) = none :=
    (hready.entries d (pdx va) (ptx va) hd hi (ptx_lt va)).trans
      (entryOf_of_no_table hnone)
  have hdir : ∀ i, (((m.addTable d (pdx va) t).addRef pp).setWord t (ptx va)
      (page2pa pp ||| perm ||| pteP)).mem d i = (m.addTable d (pdx va) t).mem d i :=
    fun i => congrFun (Function.update_of_ne htd _ _) i
  have hrefs : ∀ q, ((((m.addTable d (pdx va) t).addRef pp).setWord t (ptx va)
      (page2pa pp ||| perm ||| pteP)).pages q).ppRef =
      (((m.addTable d (pdx va) t).addRef pp).pages q).ppRef := fun _ => rfl
  refine ⟨_, pageInsert_fill (pgdirWalk_create hnone hlist (h.ledger.managed_lt t htm)
    (h.ledger.npages_le.trans (by decide))) hready.here hw, ?_, ?_, ?_, ?_, ?_⟩
  · intro i hne
    rw [hdir]
    by_cases hip : i = pdx va
    · exact absurd ⟨hip, hip ▸ hnone⟩ hne
    · exact (congrFun (Function.update_self _ _ _) i).trans
        ((Function.update_of_ne hip _ _).trans
          (congrFun (Function.update_of_ne htd _ _) i))
  · rw [hrefs, PhysMem.addRef_ppRef, if_pos rfl, PhysMem.addTable_ppRef,
      if_neg (Ne.symm htpp), hat, if_neg (by simp)]
  · intro p _ hp
    exact absurd (hat.symm.trans hp) (by simp)
  · intro _
    refine ⟨t, hlist, ?_, ?_⟩
    · rw [tableOf, hdir]
      exact hready.here
    · rw [hrefs, PhysMem.addRef_ppRef, if_neg htpp, PhysMem.addTable_ppRef,
        if_pos rfl, h.ledger.ref_eq t htm, ht0]
      rfl
  · intro p hp _ hpt
    have hne : p ≠ t := fun hh => hpt ⟨hnone, hh ▸ hlist⟩
    rw [hrefs, PhysMem.addRef_ppRef, if_neg hp, PhysMem.addTable_ppRef, if_neg hne]

/-- With the page table there. -/
theorem pageInsert_moves_present
    (h : Accounted managed free held dirs m) (hd : d ∈ dirs) (hva : va < utop)
    (ht : tableOf m.mem d (pdx va) = some t) :
    ∃ m', (pageInsert tc d pp va perm).run m = .ret 0 m' ∧ RefsMoved d pp va m m' := by
  have hi : pdx va < userPdes := (pdx_lt_userPdes va).mpr hva
  have hj : ptx va < nptentries := ptx_lt va
  have htn := h.table_lt hd hi ht
  have htd : d ≠ t := fun hh => h.spaces.table_not_dir d (pdx va) t hd hi ht (hh ▸ hd)
  have htable : ∀ {P : Prop}, tableOf m.mem d (pdx va) = none → P := fun hnone =>
    absurd (ht.symm.trans hnone) (by simp)
  cases hw : entryOf m.mem d (pdx va) (ptx va) with
  | none =>
      have hat : m.pageAt d va = none := by
        unfold PhysMem.pageAt mappedPage
        rw [hw]
        rfl
      have hrefs : ∀ q, (((m.addRef pp).setWord t (ptx va)
          (page2pa pp ||| perm ||| pteP)).pages q).ppRef =
          ((m.addRef pp).pages q).ppRef := fun _ => rfl
      refine ⟨_, pageInsert_fill (pgdirWalk_present ht htn) ht hw, ?_, ?_, ?_,
        htable, ?_⟩
      · intro i _
        exact congrFun (Function.update_of_ne htd _ _) i
      · rw [hrefs, PhysMem.addRef_ppRef, if_pos rfl, hat, if_neg (by simp)]
      · intro p _ hp
        exact absurd (hat.symm.trans hp) (by simp)
      · intro p hp _ _
        rw [hrefs, PhysMem.addRef_ppRef, if_neg hp]
  | some w =>
      have hat : m.pageAt d va = some (pgnum w) := mappedPage_eq_some.mpr ⟨w, hw, rfl⟩
      have hrefs : ∀ q, ((((m.addRef pp).clearEntry tc d va (pgnum w)
          ⟨t, ptx va⟩).setWord t (ptx va) (page2pa pp ||| perm ||| pteP)).pages q).ppRef =
          (((m.addRef pp).clearEntry tc d va (pgnum w) ⟨t, ptx va⟩).pages q).ppRef :=
        fun _ => rfl
      refine ⟨_, pageInsert_replace (pgdirWalk_present ht htn) ht htn hw
        (h.page_lt hd hi hj hat) (h.addRef_link hd hi hj hat), ?_, ?_, ?_, htable, ?_⟩
      · intro i _
        refine (congrFun (Function.update_of_ne htd _ _) i).trans ?_
        rw [PhysMem.clearEntry_mem]
        exact congrFun (Function.update_of_ne htd _ _) i
      · rw [hrefs, PhysMem.clearEntry_ppRef, PhysMem.addRef_ppRef, hat]
        by_cases hq : pp = pgnum w
        · rw [if_pos hq, ← hq, if_pos rfl, if_pos rfl, BitVec.add_sub_cancel]
        · rw [if_neg hq, PhysMem.addRef_ppRef, if_pos rfl,
            if_neg (fun hh => hq (Option.some.inj hh).symm)]
      · intro p hp hpw
        obtain rfl := Option.some.inj (hat.symm.trans hpw)
        rw [hrefs, PhysMem.clearEntry_ppRef, if_pos rfl, PhysMem.addRef_ppRef, if_neg hp]
      · intro p hp hpw _
        have hne : p ≠ pgnum w := fun hh => hpw (hh ▸ hat)
        rw [hrefs, PhysMem.clearEntry_ppRef, if_neg hne, PhysMem.addRef_ppRef, if_neg hp]

/-- `page_insert` fails for want of a page table, or moves the counters. -/
theorem pageInsert_moves
    (h : Accounted managed free held dirs m) (hd : d ∈ dirs) (hva : va < utop)
    (hfree : pp ∉ free) :
    (m.NoTable d va ∧ (pageInsert tc d pp va perm).run m = .ret (-eNoMem) m) ∨
    (¬ m.NoTable d va ∧ ∃ m', (pageInsert tc d pp va perm).run m = .ret 0 m' ∧
      RefsMoved d pp va m m') := by
  cases ht : tableOf m.mem d (pdx va) with
  | some t =>
      refine Or.inr ⟨fun hno => ?_, pageInsert_moves_present h hd hva ht⟩
      exact absurd (ht.symm.trans hno.1) (by simp)
  | none =>
      cases hlist : m.pageFreeList with
      | none =>
          refine Or.inl ⟨⟨ht, hlist⟩, ?_⟩
          unfold pageInsert
          rw [Prog.run_bind_ret (pgdirWalk_noMem ht hlist)]
          rfl
      | some t =>
          refine Or.inr ⟨fun hno => ?_, pageInsert_moves_create h hd hva hfree ht hlist⟩
          exact absurd (hlist.symm.trans hno.2) (by simp)

/-- `page_insert` with its contract kept: what becomes of the address spaces and
what becomes of the counters. -/
theorem pageInsert_result (tc : ThisCpu)
    (h : Accounted managed free held dirs m) (hd : d ∈ dirs) (hva : va < utop)
    (hpp : Mappable managed dirs m.mem pp) (hfree : pp ∉ free)
    (hperm : PermFits perm pp) (hmax : ∀ p, refCount m.mem dirs p ≤ 65535) :
    (m.NoTable d va ∧ (pageInsert tc d pp va perm).run m = .ret (-eNoMem) m) ∨
    (¬ m.NoTable d va ∧ ∃ m' t free', (pageInsert tc d pp va perm).run m = .ret 0 m' ∧
      RefsMoved d pp va m m' ∧ Inserted managed free' (held.erase pp) dirs d va t
        (page2pa pp ||| perm ||| pteP) m m') := by
  refine (pageInsert_moves h hd hva hfree).imp id (fun ⟨hno, m', hrun, hmoved⟩ => ?_)
  have hreturns : Returns (pageInsert tc d pp va perm) _ m :=
    pageInsert_inserts h hd hva hpp hfree hperm hmax
  obtain ⟨r₁, m₁, hrun₁, hres⟩ := returns_iff.mp hreturns
  obtain ⟨rfl, rfl⟩ : 0 = r₁ ∧ m' = m₁ := by
    injection hrun.symm.trans hrun₁ with hr hm
    exact ⟨hr, hm⟩
  rcases hres with ⟨-, -, hr, -⟩ | ⟨-, t, free', hins⟩
  · exact absurd hr (by decide)
  · exact ⟨hno, m', t, free', hrun, hmoved, hins⟩

/-- A page that lost a reference is free exactly if it was the last. -/
theorem Accounted.free_iff_last {free' : List Nat} {held' : Finset Nat} {m' : PhysMem}
    {p : Nat} (h : Accounted managed free held dirs m)
    (h' : Accounted managed free' held' dirs m') (hp : p ∈ managed)
    (hheld : p ∉ held') (hmax : refCount m.mem dirs p ≤ 65535)
    (hmax' : refCount m'.mem dirs p ≤ 65535) (hpos : 0 < refCount m.mem dirs p)
    (href : (m'.pages p).ppRef = (m.pages p).ppRef - 1#16) :
    (m'.pages p).ppRef.toNat + 1 = (m.pages p).ppRef.toNat ∧
    (m'.IsFree p ↔ (m.pages p).ppRef = 1#16) := by
  have hold := h.ledger.ref_eq p hp
  have hnew := h'.ledger.ref_eq p hp
  have hcount : (m.pages p).ppRef.toNat = refCount m.mem dirs p := by
    rw [hold, BitVec.toNat_ofNat]
    omega
  have hcount' : (m'.pages p).ppRef.toNat = refCount m'.mem dirs p := by
    rw [hnew, BitVec.toNat_ofNat]
    omega
  have hsub : (m'.pages p).ppRef.toNat + 1 = (m.pages p).ppRef.toNat := by
    rw [href]
    have hone : (1#16).toNat = 1 := rfl
    rw [BitVec.toNat_sub_of_le (by rw [BitVec.le_def]; omega)]
    omega
  refine ⟨hsub, ?_⟩
  have hfree : m'.IsFree p ↔ refCount m'.mem dirs p = 0 := by
    constructor
    · rintro ⟨list, hchain, hmem⟩
      obtain rfl := hchain.unique h'.ledger.chain
      exact h'.free_unreferenced hmem
    · intro hzero
      exact ⟨free', h'.ledger.chain, (h'.ledger.pool.mem_free p hp).mpr ⟨hzero, hheld⟩⟩
  rw [hfree, ← BitVec.toNat_inj]
  change _ ↔ _ = 1
  omega

/-- A call of `page_insert` with its contract kept does what it is for exactly if
the counter has room. -/
theorem pageInsert_done_iff (tc : ThisCpu)
    (h : Accounted managed free held dirs m) (hk : KernDir managed m)
    (hd : d ∈ dirs) (hva : va < utop) (hpp : Mappable managed dirs m.mem pp)
    (hfree : pp ∉ free) (hperm : PermFits perm pp)
    (hmax : ∀ p, refCount m.mem dirs p ≤ 65535) :
    ∃ r m', (pageInsert tc d pp va perm).run m = .ret r m' ∧
      (PageInsertDone (insert m.kernPgdir dirs) d pp va perm m r m' ↔
        m.RefFits d pp va) := by
  have hi : pdx va < userPdes := (pdx_lt_userPdes va).mpr hva
  have hj : ptx va < nptentries := ptx_lt va
  rcases pageInsert_result tc h hd hva hpp hfree hperm hmax with
    ⟨hno, hrun⟩ | ⟨hno, m', t, free', hrun, hmoved, hins⟩
  · refine ⟨-eNoMem, m, hrun, iff_of_true ⟨iff_of_true rfl hno, fun _ => rfl,
      fun hne => absurd rfl hne⟩ (Or.inr (Or.inr hno))⟩
  refine ⟨0, m', hrun, ?_⟩
  have hkern : m'.mem m.kernPgdir = m.mem m.kernPgdir :=
    hins.frame.outside _ hk.not_managed
  have hkernd : m.kernPgdir ≠ d := fun hh =>
    hk.not_managed (hh ▸ h.spaces.dir_managed d hd)
  constructor
  · intro hdone
    by_contra hfull
    obtain ⟨hlast, hne, -⟩ : (m.pages pp).ppRef = 0xFFFF#16 ∧
        m.pageAt d va ≠ some pp ∧ ¬ m.NoTable d va := by
      simpa only [PhysMem.RefFits, not_or, not_not] using hfull
    have href := (hdone.mapped (by decide)).2.ref
    rw [hmoved.ref, if_neg hne, if_neg hne, hlast] at href
    exact absurd href (by decide)
  · intro hfits
    refine ⟨iff_of_false (by decide) hno, fun hr => absurd hr (by decide),
      fun _ => ⟨rfl, hins.here, ?_, ?_, ?_, ?_, ?_, hmoved.table, hmoved.rest⟩⟩
    · intro d' i j hd' hi' hj' hne
      rcases Finset.mem_insert.mp hd' with rfl | hd'
      · have habs := tableOf_eq_none.mpr (hk.empty i hi')
        rw [entryOf_of_no_table habs, entryOf_of_no_table]
        rw [tableOf, hkern]
        exact habs
      · exact hins.entries d' i j hd' hi' hj' hne
    · intro d' i hd' hi' hne
      rcases Finset.mem_insert.mp hd' with rfl | hd'
      · rw [hkern]
      · by_cases hdd : d' = d
        · subst hdd
          exact hmoved.dirWords i (fun hh => hne ⟨rfl, hh⟩)
        · refine congrFun (hins.words d' hdd (fun hh => ?_)) i
          exact hins.accounted.spaces.table_not_dir d (pdx va) t hd hi hins.table
            (hh ▸ hd')
    · rintro ⟨list, hchain, hmem⟩
      obtain rfl := hchain.unique hins.accounted.ledger.chain
      refine hins.accounted.not_free (Or.inr ⟨d, pdx va, ptx va, hd, hi, hj, ?_⟩) hmem
      exact mappedPage_eq_some.mpr ⟨_, hins.here, hperm⟩
    · rw [hmoved.ref]
      by_cases hat : m.pageAt d va = some pp
      · rw [if_pos hat, if_pos hat]
      · rw [if_neg hat, if_neg hat]
        have hroom : (m.pages pp).ppRef ≠ 0xFFFF#16 := by
          rcases hfits with hroom | hat' | hno'
          · exact hroom
          · exact absurd hat' hat
          · exact absurd hno' hno
        rw [ne_eq, ← BitVec.toNat_inj] at hroom
        have hlt := (m.pages pp).ppRef.isLt
        have hone : (1#16).toNat = 1 := rfl
        have hfull : (0xFFFF#16).toNat = 65535 := rfl
        rw [BitVec.toNat_add, hone]
        rw [hfull] at hroom
        omega
    · intro p hp hat
      have hpm := h.spaces.page_managed d _ _ _ hd hi hj hat
      have hpos := refCount_pos_of_page hd hi hj hat
      refine h.free_iff_last hins.accounted hpm ?_ (hmax p) ?_ hpos
        (hmoved.former p hp hat)
      · intro hheld
        have := h.ledger.pool.held_unreferenced p (Finset.mem_of_mem_erase hheld)
        omega
      · have hle := hins.counts p
        have hw : p ≠ pgnum (page2pa pp ||| perm ||| pteP) := fun hh =>
          hp (hh.trans hperm)
        rw [if_neg hw] at hle
        exact hle.trans (max_le (by decide) (hmax p))

/-- With room in the counter, every count stays in range. -/
theorem pageInsert_counts
    (h : Accounted managed free held dirs m) (hd : d ∈ dirs) (hva : va < utop)
    (hpp : Mappable managed dirs m.mem pp) (hfree : pp ∉ free)
    (hperm : PermFits perm pp) (hmax : ∀ p, refCount m.mem dirs p ≤ 65535)
    (hfits : m.RefFits d pp va) :
    Returns (pageInsert tc d pp va perm)
      (fun _ m' => ∀ p, refCount m'.mem dirs p ≤ 65535) m := by
  rcases pageInsert_result tc h hd hva hpp hfree hperm hmax with
    ⟨-, hrun⟩ | ⟨hno, m', t, free', hrun, hmoved, hins⟩
  · exact returns_iff.mpr ⟨_, _, hrun, hmax⟩
  refine returns_iff.mpr ⟨_, _, hrun, fun p => ?_⟩
  have hle := hins.counts p
  have hp := hmax p
  by_cases hpw : p = pgnum (page2pa pp ||| perm ||| pteP)
  · rw [if_pos hpw] at hle
    obtain rfl : p = pp := hpw.trans hperm
    by_contra hover
    -- both counters are known, and they do not differ as they should
    have hold := h.ledger.ref_eq p hpp.managed
    have hnew := hins.accounted.ledger.ref_eq p hpp.managed
    have hmoves := hmoved.ref
    rw [hnew, hold, show refCount m'.mem dirs p = 65536 by omega,
      show refCount m.mem dirs p = 65535 by omega] at hmoves
    rw [PhysMem.RefFits, hold, show refCount m.mem dirs p = 65535 by omega] at hfits
    rcases hfits with hroom | hat | hno'
    · exact hroom rfl
    · rw [if_pos hat] at hmoves
      exact absurd hmoves (by decide)
    · exact hno hno'
  · rw [if_neg hpw] at hle
    omega

end Moves

/-! ## Runs -/

namespace PageCall

/-- A counter that the call counts up has room. -/
def RefFits (k : Kernel) : PageCall → Prop
  | pageInsert _ e pp va _ => ∀ d, (k.envs e).envPgdir = some d → k.vm.RefFits d pp va
  | envFree _ _ => True
  | pageRemove _ _ _ => True
  | envAlloc _ => True
  | pageAlloc _ => True
  | pageFree _ => True

end PageCall

/-- The states that calls reach from `s₀`, when every call satisfies `Ok` in the
state in which it is made. -/
inductive CallsFrom (Ok : Kernel → PageCall → Prop) (s₀ : PageState) :
    PageState → Prop where
  | init : CallsFrom Ok s₀ s₀
  | call {s s' : PageState} (call : PageCall) :
      CallsFrom Ok s₀ s → call.Allowed s → Ok s.k call → call.exec s = some s' →
      CallsFrom Ok s₀ s'

/-- A state in which no function of the kernel is under way: `env_init` left it, or
the whole system reached it in clean steps. -/
def BetweenSteps (managed : Set Nat) (k : Kernel) : Prop :=
  InitLeaves managed k ∨ RunOf managed (fun k ev => ev.Clean k) k

section Runs

variable {managed : Set Nat} {held : Finset Nat} {k k₀ : Kernel} {s : PageState}
  {call : PageCall}

theorem returns_and {σ α : Type} {p : Prog σ α} {R R' : α → σ → Prop} {t : σ}
    (h : Returns p R t) (h' : Returns p R' t) :
    Returns p (fun a t' => R a t' ∧ R' a t') t := by
  obtain ⟨a, t', hrun, hR⟩ := returns_iff.mp h
  exact returns_iff.mpr ⟨a, t', hrun, hR, wp_ret h' hrun⟩

/-- A call keeps the counts in range, the processors and the lock. -/
theorem PageCall.prog_rest (h : Books managed held k)
    (hmax : ∀ p, refCount k.vm.mem (envDirs k) p ≤ 65535)
    (hallowed : call.Allowed ⟨k, held⟩) (hfits : call.RefFits k) :
    Returns (call.prog k) (fun _ k' =>
      (∀ p, refCount k'.vm.mem (envDirs k') p ≤ 65535) ∧ k'.cpus = k.cpus ∧
        k'.kernelLock = k.kernelLock) k := by
  obtain ⟨free, hacc⟩ := h.accounted
  cases call with
  | envAlloc parentId =>
      refine returns_bind (envAlloc_returns hacc h.kernDir parentId) ?_
      rintro r k' (⟨-, -, rfl⟩ | ⟨-, -, -, rfl⟩ |
        ⟨e, p, free', vm, hlist, -, -, rfl, hadd⟩)
      · exact ⟨hmax, rfl, rfl⟩
      · exact ⟨hmax, rfl, rfl⟩
      · refine ⟨fun q => ?_, rfl, rfl⟩
        rw [envDirs_allocated h.table hlist, allocated_vm, hadd.counts]
        by_cases hq : q = p
        · rw [hq, incr, Function.update_self, hadd.fresh]
          decide
        · rw [incr, Function.update_of_ne hq]
          exact hmax q
  | envFree c e =>
      obtain ⟨d, hd, -⟩ := h.live_pgdir hallowed
      refine returns_bind (envFree_returns hacc hmax hallowed.1 hd) ?_
      rintro _ k' hf
      obtain ⟨vm, rfl⟩ := hf.state
      refine ⟨fun q => ?_, rfl, rfl⟩
      rw [envDirs_freed h.table hallowed.1 hd]
      refine (hf.space.counts q).trans ?_
      rw [leaveDir_mem]
      exact hmax q
  | pageAlloc zero =>
      refine returns_bind (onVm_returns (pageAlloc_returns zero hacc)) ?_
      rintro r _ ⟨vm, rfl, ⟨-, rfl, rfl⟩ | ⟨p, free', -, rfl, ha⟩⟩
      · exact ⟨hmax, rfl, rfl⟩
      · refine ⟨fun q => ?_, rfl, rfl⟩
        rw [envDirs_setVm, Kernel.setVm_vm, ha.views.refCount_eq]
        exact hmax q
  | pageFree pp =>
      refine returns_bind (onVm_returns (pageFree_returns hacc hallowed)) ?_
      rintro _ _ ⟨vm, rfl, rfl, hacc'⟩
      refine ⟨fun q => ?_, rfl, rfl⟩
      rw [envDirs_setVm, Kernel.setVm_vm, (k.vm.pushFree_booksOnly pp).mem]
      exact hmax q
  | pageInsert c e pp va perm =>
      obtain ⟨hlive, hva, hperm, hpp⟩ := hallowed
      obtain ⟨d, hd, hdir⟩ := h.live_pgdir hlive
      have hmapp := h.mappable hpp
      simp only [PageCall.prog, onPgdir_eq hd]
      refine returns_bind (onVm_returns (pageInsert_counts hacc hdir hva hmapp
        (hacc.not_free hpp) (permFits_of_lt (hacc.ledger.lt_two_pow hmapp.managed) hperm)
        hmax (hfits d hd))) ?_
      rintro r _ ⟨vm, rfl, hcounts⟩
      refine ⟨fun q => ?_, rfl, rfl⟩
      rw [envDirs_setVm]
      exact hcounts q
  | pageRemove c e va =>
      obtain ⟨hlive, hva⟩ := hallowed
      obtain ⟨d, hd, hdir⟩ := h.live_pgdir hlive
      simp only [PageCall.prog, onPgdir_eq hd]
      refine returns_bind (onVm_returns (pageRemove_returns hacc hdir hva hmax)) ?_
      rintro _ _ ⟨vm, rfl, free', hrem⟩
      refine ⟨fun q => ?_, rfl, rfl⟩
      rw [envDirs_setVm]
      exact (hrem.counts q).trans (hmax q)

/-- Calls whose counters have room keep the books, with every count in range. -/
theorem CallsFrom.books (h₀ : BetweenSteps managed k₀)
    (h : CallsFrom (fun k call => call.RefFits k) ⟨k₀, ∅⟩ s) :
    Books managed s.held s.k ∧
      ∀ p, refCount s.k.vm.mem (envDirs s.k) p ≤ 65535 := by
  induction h with
  | init =>
      rcases h₀ with hinit | hrun
      · refine ⟨hinit.books, fun p => ?_⟩
        rw [hinit.envDirs_eq, refCount_empty]
        exact Nat.zero_le _
      · have hmemory := (hrun.sound (fun _ _ hok => hok)).memory
        exact ⟨hmemory.books, hmemory.counts⟩
  | @call s s' call _ hallowed hfits hexec ih =>
      obtain ⟨f, k', hrun, hbooks, hcounts, -, -⟩ := returns_iff.mp (returns_and
        (call.prog_books ih.1 ih.2 hallowed) (call.prog_rest ih.1 ih.2 hallowed hfits))
      have hs : call.exec s = some ⟨k', f s.held⟩ := by
        rw [PageCall.exec, hrun]
      obtain rfl := Option.some.inj (hs.symm.trans hexec)
      exact ⟨hbooks, hcounts⟩

/-- In every state that calls reach while their counters have room, one more
`page_insert` does what it is for if and only if its counter has room. -/
theorem page_insert_done {d c e pp : Nat} {va perm : U32}
    (h₀ : BetweenSteps managed k₀)
    (h : CallsFrom (fun k call => call.RefFits k) ⟨k₀, ∅⟩ s)
    (hallowed : (PageCall.pageInsert c e pp va perm).Allowed s)
    (hd : (s.k.envs e).envPgdir = some d) :
    ∃ r m', (pageInsert (s.k.thisCpu c) d pp va perm).run s.k.vm = .ret r m' ∧
      (PageInsertDone (insert s.k.vm.kernPgdir (envDirs s.k)) d pp va perm s.k.vm r m' ↔
        s.k.vm.RefFits d pp va) := by
  obtain ⟨hbooks, hmax⟩ := h.books h₀
  obtain ⟨free, hacc⟩ := hbooks.accounted
  obtain ⟨hlive, hva, hperm, hpp⟩ := hallowed
  have hmapp := hbooks.mappable hpp
  exact pageInsert_done_iff _ hacc hbooks.kernDir (mem_envDirs.mpr ⟨e, hlive.1, hd⟩) hva hmapp
    (hacc.not_free hpp) (permFits_of_lt (hacc.ledger.lt_two_pow hmapp.managed) hperm) hmax

end Runs

/-- The calls that environment 0 can ask for keep the contract of `page_insert`. -/
theorem Filling.allowed {managed : Set Nat} {p d n : Nat} {k : Kernel} {va perm : U32}
    (h : Filling managed p d n k) (hva : va < utop) (hperm : perm.toNat < 0x1000) :
    (PageCall.pageInsert 0 0 p va perm).Allowed ⟨k, ∅⟩ := by
  obtain ⟨w, hw⟩ := Option.isSome_iff_exists.mp h.stack
  have hd : d ∈ envDirs k := by
    rw [h.dirs]
    exact Finset.mem_singleton_self d
  have hlive : (k.envs 0).envStatus ≠ .free := by
    rw [h.running]
    decide
  exact ⟨⟨by decide, hlive⟩, hva, hperm, Or.inr ⟨d, 0x3BA, 0x3FD, hd, by decide,
    by decide, mappedPage_eq_some.mpr ⟨w, (h.entryOf_eq _ _).trans hw,
      h.pages _ _ w (by decide) (by decide) hw⟩⟩⟩

/-- The first environment maps its stack page a second time. -/
theorem page_insert_done_start :
    ∃ k r m', RunOf {q | 0 < q ∧ q < 1024} (fun k ev => ev.Clean k) k ∧
      (pageInsert (k.thisCpu 0) 1 2 0x1000#32 5#32).run k.vm = .ret r m' ∧
      (PageInsertDone (insert k.vm.kernPgdir (envDirs k)) 1 2 0x1000#32 5#32 k.vm r m' ↔
        k.vm.RefFits 1 2 0x1000#32) := by
  obtain ⟨k, hk⟩ := filling_start
  have hrun := hk.run.mono (fun _ _ hok => hok.1)
  obtain ⟨r, m', hret, hdone⟩ := page_insert_done (Or.inr hrun) .init
    (hk.allowed (show (0x1000#32 : U32) < utop by decide)
      (show (5#32 : U32).toNat < 0x1000 by decide)) hk.pgdir
  exact ⟨k, r, m', hrun, hret, hdone⟩

/-- The stack page of the first environment has 65535 references, and is mapped once
more: its counter is 0 afterwards. -/
theorem not_page_insert_done :
    ¬ ∀ (managed : Set Nat) (k₀ : Kernel) (s : PageState) (d c e pp : Nat)
      (va perm : U32) (r : Int) (m' : PhysMem),
      BetweenSteps managed k₀ → CallsFrom (fun _ _ => True) ⟨k₀, ∅⟩ s →
      (PageCall.pageInsert c e pp va perm).Allowed s →
      (s.k.envs e).envPgdir = some d →
      (pageInsert (s.k.thisCpu c) d pp va perm).run s.k.vm = .ret r m' →
      PageInsertDone (insert s.k.vm.kernPgdir (envDirs s.k)) d pp va perm s.k.vm r m' := by
  intro hall
  obtain ⟨k, hk⟩ := filling_start
  obtain ⟨k₁, n, hn, h₁, href⟩ := hk.full
  have hrun : BetweenSteps {q | 0 < q ∧ q < 1024} k₁ :=
    Or.inr (h₁.run.mono (fun _ _ hok => hok.1))
  obtain ⟨hpdx, hptx, hva⟩ := pageVa_indices rfl hn
  have hutop : BitVec.ofNat 32 (n * 4096) < utop :=
    BitVec.not_le.mp (fun hle => hva (Or.inl hle))
  have hallowed := h₁.allowed hutop (show (5#32 : U32).toNat < 0x1000 by decide)
  have hbooks := h₁.sound.memory.books
  have hmax := h₁.sound.memory.counts
  obtain ⟨free, hacc⟩ := hbooks.accounted
  have hmapp := hbooks.mappable hallowed.2.2.2
  have hdir : 1 ∈ envDirs k₁ := by
    rw [h₁.dirs]
    exact Finset.mem_singleton_self 1
  obtain ⟨r, m', hret, hiff⟩ := pageInsert_done_iff (k₁.thisCpu 0) hacc
    hbooks.kernDir hdir hutop hmapp (hacc.not_free hallowed.2.2.2)
    (permFits_of_lt (hacc.ledger.lt_two_pow hmapp.managed)
      (by decide : (5#32).toNat < 4096)) hmax
  have hdone := hall _ k₁ ⟨k₁, ∅⟩ 1 0 0 2 _ 5#32 r m' hrun .init hallowed h₁.pgdir hret
  rcases hiff.mp hdone with hroom | hat | hno
  · exact hroom href
  · have hempty := h₁.empty n (Nat.le_refl n) hn
    rw [← h₁.entryOf_eq, ← hpdx, ← hptx] at hempty
    unfold PhysMem.pageAt mappedPage at hat
    rw [hempty] at hat
    exact absurd hat (by simp)
  · exact h₁.free_ne_nil hno.2

end Jos

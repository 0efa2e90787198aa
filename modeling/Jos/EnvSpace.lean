import Jos.Env

/-!
# Address spaces of environments

What `env_setup_vm` and the loops of `env_free` do to the page tables and to
the books.  `env_setup_vm` brings a new, empty directory into use; the loops of
`env_free` clear a directory below `UTOP`, entry by entry and table by table,
after which the directory goes out of use.

The two loops carry the invariants `EntriesCleared` (over one page table) and
`TablesCleared` (over the directory).
-/

namespace Jos

open Programs RefPool

/-- `kern_pgdir`, the template of every directory, maps nothing below `UTOP`;
its tables above let no user code write; and neither it nor they are pages the
allocator hands out. -/
structure KernDir (managed : Set Nat) (m : PhysMem) : Prop where
  empty : ∀ i, i < userPdes → ¬ HasFlag (m.mem m.kernPgdir i) pteP
  not_managed : m.kernPgdir ∉ managed
  table : ∀ i t, userPdes ≤ i → i < npdentries → i ≠ pdx uvpt →
    tableOf m.mem m.kernPgdir i = some t → t ∉ managed
  entry : ∀ i t j, userPdes ≤ i → i < npdentries → i ≠ pdx uvpt →
    tableOf m.mem m.kernPgdir i = some t → j < nptentries →
    ¬ (HasFlag (m.mem t j) pteU ∧ HasFlag (m.mem t j) pteW)

theorem KernDir.of_frame
    {managed : Set Nat} {dirs : Finset Nat} {m m' : PhysMem}
    (h : KernDir managed m) (hf : VmFrame managed dirs m m') :
    KernDir managed m' := by
  have hkern := hf.outside _ h.not_managed
  have htable : ∀ i, tableOf m'.mem m'.kernPgdir i =
      tableOf m.mem m.kernPgdir i := by
    intro i
    rw [hf.kernPgdir, tableOf, tableOf, hkern]
  refine ⟨fun i hi => ?_, ?_, ?_, ?_⟩
  · rw [hf.kernPgdir, hkern]
    exact h.empty i hi
  · rw [hf.kernPgdir]
    exact h.not_managed
  · intro i t hi hi' hne ht
    rw [htable] at ht
    exact h.table i t hi hi' hne ht
  · intro i t j hi hi' hne ht hj
    rw [htable] at ht
    rw [hf.outside t (h.table i t hi hi' hne ht)]
    exact h.entry i t j hi hi' hne ht hj

/-! ## `env_setup_vm` -/

/-- The words of a new directory. -/
def newDir (m : PhysMem) (p : Nat) : Nat → U32 :=
  Function.update (m.mem m.kernPgdir) (pdx uvpt) (page2pa p ||| pteP ||| pteU)

/-- What `env_setup_vm` does to physical memory, once it has a page. -/
def PhysMem.setupDir (m : PhysMem) (p : Nat) : PhysMem :=
  (m.addRef p).setPage p (newDir m p)

/-- The kernel's half is copied first, then the entry for `UVPT` is set. -/
theorem PhysMem.setupDir_steps (m : PhysMem) (p : Nat) :
    ((m.addRef p).setPage p (m.mem m.kernPgdir)).setWord p (pdx uvpt)
        (page2pa p ||| pteP ||| pteU) = m.setupDir p := by
  simp [PhysMem.setupDir, PhysMem.setWord, PhysMem.setPage, newDir]

/-- A new directory is in use and nothing else changed. -/
structure DirAdded (managed : Set Nat) (free : List Nat)
    (held dirs : Finset Nat) (p : Nat) (m m' : PhysMem) : Prop where
  accounted : Accounted managed free held (insert p dirs) m'
  views : SameViews dirs m.mem m'.mem
  fresh : refCount m.mem dirs p = 0
  isManaged : p ∈ managed
  template : m'.mem p = newDir m p
  words : ∀ q, q ≠ p → m'.mem q = m.mem q
  frame : VmFrame managed dirs m m'
  counts : refCount m'.mem (insert p dirs) = incr (refCount m.mem dirs) p

section Setup

variable {managed : Set Nat} {free : List Nat} {held dirs : Finset Nat}
  {m m' : PhysMem} {p : Nat}

/-- Below `UTOP` a new directory is empty. -/
theorem newDir_empty (h : KernDir managed m) {i : Nat} (hi : i < userPdes) :
    ¬ HasFlag (newDir m p i) pteP := by
  have hne : i ≠ pdx uvpt := by
    have : pdx uvpt = 957 := by decide
    have := userPdes_eq
    omega
  rw [newDir, Function.update_of_ne hne]
  exact h.empty i hi

theorem setupDir_added
    (h : Accounted managed (p :: free) held dirs m) (hk : KernDir managed m)
    {zero : Bool}
    (ha : Allocated managed free held dirs zero p m m') :
    DirAdded managed free held dirs p m (m'.setupDir p) := by
  have hp0 := h.free_unreferenced (List.mem_cons_self (a := p))
  have hpm := h.free_managed (List.mem_cons_self (a := p))
  have hpdir := Accounted.not_dir_of_unreferenced hp0
  have hheld : p ∉ held := h.ledger.pool.free_not_held List.mem_cons_self
  have hfree : p ∉ free := (List.nodup_cons.mp h.ledger.pool.nodup).1
  have hkern : p ≠ m.kernPgdir := fun hh => hk.not_managed (hh ▸ hpm)
  have hwords : ∀ q, q ≠ p → (m'.setupDir p).mem q = m.mem q := by
    intro q hq
    rw [← ha.words q hq]
    exact Function.update_of_ne hq _ _
  have hsame : SameViews dirs m.mem (m'.setupDir p).mem :=
    sameViews_of_unused hpdir
      (fun d i hd hi => Accounted.not_table_of_unreferenced hp0 hd hi) hwords
  have htemplate : (m'.setupDir p).mem p = newDir m p := by
    have hcopy : newDir m' p = newDir m p := by
      rw [newDir, newDir, ha.frame.kernPgdir, ha.words _ hkern.symm]
    rw [← hcopy]
    exact Function.update_self _ _ _
  have hempty : ∀ i, i < userPdes → tableOf (m'.setupDir p).mem p i = none := by
    intro i hi
    rw [tableOf_eq_none, htemplate]
    exact newDir_empty hk hi
  have hrefs : refCount (m'.setupDir p).mem dirs = refCount m.mem dirs :=
    hsame.refCount_eq
  have hledger : Ledger managed free held (incr (refCount m.mem dirs) p)
      (m'.setupDir p) := by
    have hadd := ha.accounted.ledger.addRef hpm hfree
    rw [ha.views.refCount_eq, Finset.erase_insert hheld] at hadd
    exact hadd.congr rfl rfl rfl
  have hcounts : refCount (m'.setupDir p).mem (insert p dirs) =
      incr (refCount m.mem dirs) p := by
    rw [refCount_insert_dir hpdir hempty, hrefs]
  refine ⟨⟨?_, ?_⟩, hsame, hp0, hpm, htemplate, hwords, ?_, hcounts⟩
  · rw [hcounts]
    exact hledger
  · refine (hsame.addrSpaces h.spaces).insert_dir hpm ?_ hempty
    rw [hrefs, hp0]
  · refine ⟨ha.frame.npages, ha.frame.kernPgdir, ha.frame.cr3, ?_, ?_⟩
    · intro q hq
      exact hwords q (fun hqp => hq (hqp ▸ hpm))
    · intro d i hd _
      rw [hwords d (fun hdp => hpdir (hdp ▸ hd))]

end Setup

/-- `env_setup_vm` fails for want of a page, without effect, or gives the slot
a new directory. -/
theorem envSetupVm_returns
    {managed : Set Nat} {free : List Nat} {held dirs : Finset Nat} {k : Kernel}
    (e : Nat)
    (h : Accounted managed free held dirs k.vm) (hk : KernDir managed k.vm) :
    Returns (envSetupVm e)
      (fun r k' =>
        (free = [] ∧ r = .error (-eNoMem) ∧ k' = k) ∨
        (∃ p free' vm', free = p :: free' ∧ r = .ok () ∧
          k' = (k.setVm vm').setPgdir e (some p) ∧
          DirAdded managed free' held dirs p k.vm vm')) k := by
  unfold envSetupVm
  refine returns_bind (onVm_returns (pageAlloc_returns true h)) ?_
  rintro r k' ⟨m', rfl, ⟨hnil, rfl, rfl⟩ | ⟨p, free', rfl, rfl, ha⟩⟩
  · exact Or.inl ⟨hnil, rfl, rfl⟩
  have hpm := h.free_managed (List.mem_cons_self (a := p))
  have hlt := h.ledger.managed_lt p hpm
  have hnum : pgnum (page2pa p) = p := pgnum_page2pa (h.ledger.lt_two_pow hpm)
  have hkva : (page2kva p).run m' = .ret p m' := by
    unfold page2kva
    rw [kaddr_eq, hnum]
    rw [hnum, ha.frame.npages]
    exact hlt
  rw [returns_iff]
  refine ⟨.ok (), (k.setVm (m'.setupDir p)).setPgdir e (some p), ?_,
    Or.inr ⟨p, free', _, rfl, rfl, rfl, setupDir_added h hk ha⟩⟩
  rw [← PhysMem.setupDir_steps]
  simp only
  rw [Prog.run_bind_ret (onVm_ret hkva)]
  rfl

/-! ## The loops of `env_free` -/

/-- The first `n` entries of table `i` of directory `d` are gone. -/
structure EntriesCleared (managed : Set Nat) (held dirs : Finset Nat)
    (d i n : Nat) (m m' : PhysMem) : Prop where
  accounted : ∃ free, Accounted managed free held dirs m'
  tables : ∀ d' i', d' ∈ dirs → i' < userPdes →
    tableOf m'.mem d' i' = tableOf m.mem d' i'
  gone : ∀ j, j < n → entryOf m'.mem d i j = none
  entries : ∀ d' i' j', d' ∈ dirs → i' < userPdes → j' < nptentries →
    ¬ (d' = d ∧ i' = i ∧ j' < n) →
    entryOf m'.mem d' i' j' = entryOf m.mem d' i' j'
  counts : ∀ p, refCount m'.mem dirs p ≤ refCount m.mem dirs p
  frame : VmFrame managed dirs m m'

/-- The part of directory `d` below table `n` is gone. -/
structure TablesCleared (managed : Set Nat) (held dirs : Finset Nat)
    (d n : Nat) (m m' : PhysMem) : Prop where
  accounted : ∃ free, Accounted managed free held dirs m'
  gone : ∀ i, i < n → tableOf m'.mem d i = none
  tables : ∀ d' i', d' ∈ dirs → i' < userPdes → ¬ (d' = d ∧ i' < n) →
    tableOf m'.mem d' i' = tableOf m.mem d' i'
  entries : ∀ d' i' j', d' ∈ dirs → i' < userPdes → j' < nptentries →
    ¬ (d' = d ∧ i' < n) → entryOf m'.mem d' i' j' = entryOf m.mem d' i' j'
  counts : ∀ p, refCount m'.mem dirs p ≤ refCount m.mem dirs p
  frame : VmFrame managed dirs m m'

section Teardown

variable {managed : Set Nat} {held dirs : Finset Nat} {m m' : PhysMem}
  {d i j t : Nat} {tc : ThisCpu}

/-- One entry more: it was there and is removed, or there was none. -/
theorem EntriesCleared.step
    (h : EntriesCleared managed held dirs d i j m m')
    (hd : d ∈ dirs) (hi : i < userPdes) (hj : j < nptentries)
    {m'' : PhysMem} {free : List Nat}
    (hr : Removed managed free held dirs d (pgaddr i j 0) m' m'') :
    EntriesCleared managed held dirs d i (j + 1) m m'' := by
  have hi' : i < 1024 := hi.trans_le (by decide)
  have hentry := hr.entry
  rw [pdx_pgaddr hi' hj, ptx_pgaddr hi' hj] at hentry
  refine ⟨⟨free, hr.accounted⟩, ?_, ?_, ?_, ?_, h.frame.trans hr.frame⟩
  · intro d' i' hd' hi'
    rw [hentry.table d' i' hd' hi', h.tables d' i' hd' hi']
  · intro j' hj'
    by_cases hjj : j' = j
    · rw [hjj, hentry.here, if_neg (not_hasFlag_zero pteP)]
    · rw [hentry.entry d i j' hd hi (by omega) (fun hh => hjj hh.2.2)]
      exact h.gone j' (by omega)
  · intro d' i' j' hd' hi' hj' hne
    rw [hentry.entry d' i' j' hd' hi' hj' (by
      rintro ⟨rfl, rfl, rfl⟩
      exact hne ⟨rfl, rfl, by omega⟩)]
    refine h.entries d' i' j' hd' hi' hj' ?_
    rintro ⟨rfl, rfl, hlt⟩
    exact hne ⟨rfl, rfl, by omega⟩
  · exact fun p => (hr.counts p).trans (h.counts p)

/-- An absent entry needs no removal. -/
theorem EntriesCleared.skip
    (h : EntriesCleared managed held dirs d i j m m')
    (hnone : entryOf m'.mem d i j = none) :
    EntriesCleared managed held dirs d i (j + 1) m m' := by
  refine ⟨h.accounted, h.tables, ?_, ?_, h.counts, h.frame⟩
  · intro j' hj'
    by_cases hjj : j' = j
    · rw [hjj, hnone]
    · exact h.gone j' (by omega)
  · intro d' i' j' hd' hi' hj' hne
    refine h.entries d' i' j' hd' hi' hj' ?_
    rintro ⟨rfl, rfl, hlt⟩
    exact hne ⟨rfl, rfl, by omega⟩

/-- One turn of the inner loop. -/
theorem envFreeEntry_returns
    (h : EntriesCleared managed held dirs d i j m m') (hd : d ∈ dirs)
    (hi : i < userPdes) (hj : j < nptentries) (ht : tableOf m.mem d i = some t)
    (hmax : ∀ p, refCount m.mem dirs p ≤ 65535) :
    Returns (do
        let pte ← readPte ⟨t, j⟩
        Prog.when (HasFlag pte pteP) (pageRemove tc d (pgaddr i j 0)))
      (fun _ m'' => EntriesCleared managed held dirs d i (j + 1) m m'') m' := by
  have hi' : i < 1024 := hi.trans_le (by decide)
  obtain ⟨free', hacc⟩ := h.accounted
  have ht' : tableOf m'.mem d i = some t := by
    rw [h.tables d i hd hi, ht]
  refine returns_bind (R := fun w s => w = m'.mem t j ∧ s = m') ⟨rfl, rfl⟩ ?_
  rintro w s ⟨rfl, rfl⟩
  refine wp_when (fun hpres => ?_) (fun habs => ?_)
  · have hva : pgaddr i j 0 < utop := by
      rw [← pdx_lt_userPdes, pdx_pgaddr hi' hj]
      exact hi
    refine (pageRemove_returns hacc hd hva
      (fun p => (h.counts p).trans (hmax p))).mono ?_
    rintro _ s ⟨free'', hr⟩
    exact h.step hd hi hj hr
  · refine h.skip ?_
    rw [entryOf_of_table ht', if_neg habs]

theorem EntriesCleared.init {free : List Nat}
    (h : Accounted managed free held dirs m) :
    EntriesCleared managed held dirs d i 0 m m :=
  ⟨⟨free, h⟩, fun _ _ _ _ => rfl, fun _ hj => absurd hj (Nat.not_lt_zero _),
    fun _ _ _ _ _ _ _ => rfl, fun _ => le_rfl, VmFrame.refl _ _ _⟩

/-- The inner loop empties the page table. -/
theorem envFreeEntries_returns
    {free : List Nat}
    (h : Accounted managed free held dirs m) (hd : d ∈ dirs)
    (hi : i < userPdes) (ht : tableOf m.mem d i = some t)
    (hmax : ∀ p, refCount m.mem dirs p ≤ 65535) :
    Returns (envFreeEntries tc d i t)
      (fun _ m' => EntriesCleared managed held dirs d i nptentries m m') m := by
  refine (returns_forRange
    (fun j m' => EntriesCleared managed held dirs d i j m m') 0 nptentries ?_
    (.init h)).mono (fun _ m' hm' => by rwa [Nat.zero_add] at hm')
  intro j m' _ hj hinv
  rw [Nat.zero_add] at hj
  exact envFreeEntry_returns hinv hd hi hj ht hmax

/-- A table that is not there needs no clearing. -/
theorem TablesCleared.skip
    (h : TablesCleared managed held dirs d i m m')
    (hnone : tableOf m'.mem d i = none) :
    TablesCleared managed held dirs d (i + 1) m m' := by
  refine ⟨h.accounted, ?_, ?_, ?_, h.counts, h.frame⟩
  · intro i' hi'
    by_cases hii : i' = i
    · rw [hii, hnone]
    · exact h.gone i' (by omega)
  · intro d' i' hd' hi' hne
    refine h.tables d' i' hd' hi' ?_
    rintro ⟨rfl, hlt⟩
    exact hne ⟨rfl, by omega⟩
  · intro d' i' j' hd' hi' hj' hne
    refine h.entries d' i' j' hd' hi' hj' ?_
    rintro ⟨rfl, hlt⟩
    exact hne ⟨rfl, by omega⟩

/-- An emptied table is taken out of the directory and its page freed. -/
theorem TablesCleared.step
    (h : TablesCleared managed held dirs d i m m')
    (hd : d ∈ dirs) (hi : i < userPdes) (ht : tableOf m'.mem d i = some t)
    (hmax : ∀ p, refCount m.mem dirs p ≤ 65535)
    {m'' : PhysMem}
    (he : EntriesCleared managed held dirs d i nptentries m' m'') :
    TablesCleared managed held dirs d (i + 1) m
      ((m''.setWord d i 0#32).dropRef t) := by
  obtain ⟨free, hacc⟩ := he.accounted
  have ht'' : tableOf m''.mem d i = some t := by
    rw [he.tables d i hd hi, ht]
  have htm := hacc.spaces.table_managed d i t hd hi ht''
  have hpos := refCount_pos_of_table hd hi ht''
  have hle : refCount m''.mem dirs t ≤ 65536 := by
    have := (he.counts t).trans ((h.counts t).trans (hmax t))
    omega
  have hdrops : DropsTable dirs d i m''.mem
      ((m''.setWord d i 0#32).dropRef t).mem := by
    rw [((m''.setWord d i 0#32).dropRef_booksOnly t).mem]
    exact dropsTable_set hacc.spaces hd he.gone
  have hrefs := hdrops.refCount_eq hd hi ht''
  have hledger := (hacc.ledger.setWord d i 0#32).dropRef htm hpos hle
  refine ⟨⟨Ledger.freeAfterDrop (refCount m''.mem dirs) t free, ?_, ?_⟩,
    ?_, ?_, ?_, ?_, ?_⟩
  · rw [hrefs]
    exact hledger
  · exact hdrops.addrSpaces hacc.spaces
  · intro i' hi'
    by_cases hii : i' = i
    · rw [hii]
      exact hdrops.here
    · rw [hdrops.table d i' hd (by omega) (fun hh => hii hh.2),
        he.tables d i' hd (by omega)]
      exact h.gone i' (by omega)
  · intro d' i' hd' hi' hne
    rw [hdrops.table d' i' hd' hi' (by
      rintro ⟨rfl, rfl⟩
      exact hne ⟨rfl, by omega⟩), he.tables d' i' hd' hi']
    refine h.tables d' i' hd' hi' ?_
    rintro ⟨rfl, hlt⟩
    exact hne ⟨rfl, by omega⟩
  · intro d' i' j' hd' hi' hj' hne
    rw [hdrops.entry d' i' j' hd' hi' hj', he.entries d' i' j' hd' hi' hj' (by
      rintro ⟨rfl, rfl, _⟩
      exact hne ⟨rfl, by omega⟩)]
    refine h.entries d' i' j' hd' hi' hj' ?_
    rintro ⟨rfl, hlt⟩
    exact hne ⟨rfl, by omega⟩
  · intro p
    rw [hrefs]
    exact (decr_le _ t p).trans ((he.counts p).trans (h.counts p))
  · refine (h.frame.trans he.frame).trans (VmFrame.trans ?_
      ((m''.setWord d i 0#32).dropRef_booksOnly t).vmFrame)
    refine ⟨rfl, rfl, rfl, ?_, ?_⟩
    · intro q hq
      have hqd : q ≠ d := fun hh => hq (hh ▸ hacc.spaces.dir_managed d hd)
      exact Function.update_of_ne hqd _ _
    · intro d' i' _ hi'
      refine Mem.set_of_ne ?_
      rintro ⟨_, rfl⟩
      omega

theorem envFreeTable_returns
    (h : TablesCleared managed held dirs d i m m')
    (hd : d ∈ dirs) (hi : i < userPdes)
    (hmax : ∀ p, refCount m.mem dirs p ≤ 65535) :
    Returns (envFreeTable tc d i)
      (fun _ m'' => TablesCleared managed held dirs d (i + 1) m m'') m' := by
  obtain ⟨free, hacc⟩ := h.accounted
  unfold envFreeTable
  refine returns_bind (R := fun w s => w = m'.mem d i ∧ m' = s) ⟨rfl, rfl⟩ ?_
  rintro w s ⟨rfl, rfl⟩
  refine wp_when (fun hpres => ?_)
    (fun habs => h.skip (tableOf_eq_none.mpr habs))
  have ht : tableOf m'.mem d i = some (pgnum (m'.mem d i)) :=
    tableOf_eq_some.mpr ⟨hpres, rfl⟩
  have hlt := hacc.table_lt hd hi ht
  generalize hpde : m'.mem d i = pde at hpres ht hlt
  have hk : ∀ s : PhysMem, s.npages = m'.npages →
      (kaddr (pteAddr pde)).run s = .ret (pgnum pde) s := by
    intro s hs
    rw [kaddr_eq, pgnum_pteAddr]
    rw [pgnum_pteAddr, hs]
    exact hlt
  refine returns_bind (R := fun pt s => pt = pgnum pde ∧ m' = s)
    (returns_iff.mpr ⟨_, _, hk m' rfl, rfl, rfl⟩) ?_
  rintro pt s ⟨rfl, rfl⟩
  refine returns_bind (envFreeEntries_returns hacc hd hi ht
    (fun p => (h.counts p).trans (hmax p))) ?_
  intro _ m'' he
  rw [returns_iff]
  obtain ⟨free', hacc'⟩ := he.accounted
  have ht' : tableOf m''.mem d i = some (pgnum pde) := by
    rw [he.tables d i hd hi, ht]
  have hlink : ((m''.setWord d i 0#32).pages (pgnum pde)).ppLink = none := by
    have hpos := refCount_pos_of_table hd hi ht'
    exact hacc'.ledger.link_none _ (hacc'.spaces.table_managed d i _ hd hi ht')
      (hacc'.ledger.pool.not_free_of_referenced (by omega))
  have hpp : (pa2page (pteAddr pde)).run (m''.setWord d i 0#32) =
      .ret (pgnum pde) (m''.setWord d i 0#32) := hk _ he.frame.npages
  rw [Prog.run_bind_ret (writePte_eq _ _), Prog.run_bind_ret hpp]
  exact ⟨(), _, pageDecref_eq hlink, h.step hd hi ht hmax he⟩

theorem TablesCleared.init {free : List Nat}
    (h : Accounted managed free held dirs m) :
    TablesCleared managed held dirs d 0 m m :=
  ⟨⟨free, h⟩, fun _ hi => absurd hi (Nat.not_lt_zero _), fun _ _ _ _ _ => rfl,
    fun _ _ _ _ _ _ _ => rfl, fun _ => le_rfl, VmFrame.refl _ _ _⟩

/-- The two loops of `env_free`: the directory is empty below `UTOP`, and no
other one changed. -/
theorem envFreeTables_returns
    {free : List Nat}
    (h : Accounted managed free held dirs m) (hd : d ∈ dirs)
    (hmax : ∀ p, refCount m.mem dirs p ≤ 65535) :
    Returns (Prog.forRange 0 userPdes (envFreeTable tc d))
      (fun _ m' => TablesCleared managed held dirs d userPdes m m') m := by
  refine (returns_forRange
    (fun i m' => TablesCleared managed held dirs d i m m') 0 userPdes ?_
    (.init h)).mono (fun _ m' hm' => by rwa [Nat.zero_add] at hm')
  intro i m' _ hi hinv
  rw [Nat.zero_add] at hi
  exact envFreeTable_returns hinv hd hi hmax

/-- Directory `d` is out of use, its pages are released, and no other
directory changed. -/
structure DirFreed (managed : Set Nat) (held dirs : Finset Nat) (d : Nat)
    (m m' : PhysMem) : Prop where
  accounted : ∃ free, Accounted managed free held (dirs.erase d) m'
  views : SameViews (dirs.erase d) m.mem m'.mem
  frame : VmFrame managed dirs m m'
  counts : ∀ p, refCount m'.mem (dirs.erase d) p ≤ refCount m.mem dirs p

/-- A directory that is empty below `UTOP` goes out of use. -/
theorem TablesCleared.dropDir
    (h : TablesCleared managed held dirs d userPdes m m') (hd : d ∈ dirs) :
    DirFreed managed held dirs d m (m'.dropRef d) := by
  obtain ⟨free, hacc⟩ := h.accounted
  have hmem := (m'.dropRef_booksOnly d).mem
  have hdm := hacc.spaces.dir_managed d hd
  have hone := hacc.spaces.refCount_dir hd
  have hledger := hacc.ledger.dropRef hdm (by omega) (by omega)
  refine ⟨⟨Ledger.freeAfterDrop (refCount m'.mem dirs) d free, ?_, ?_⟩, ?_,
    h.frame.trans (m'.dropRef_booksOnly d).vmFrame, ?_⟩
  · rw [hmem, refCount_erase_dir hd h.gone]
    exact hledger
  · rw [hmem]
    exact hacc.spaces.erase_dir
  · rw [hmem]
    constructor
    · intro d' i' hd' hi'
      obtain ⟨hne, hd'⟩ := Finset.mem_erase.mp hd'
      exact h.tables d' i' hd' hi' (fun hh => hne hh.1)
    · intro d' i' j' hd' hi' hj'
      obtain ⟨hne, hd'⟩ := Finset.mem_erase.mp hd'
      exact h.entries d' i' j' hd' hi' hj' (fun hh => hne hh.1)
  · intro p
    rw [hmem, refCount_erase_dir hd h.gone]
    exact (decr_le _ d p).trans (h.counts p)

end Teardown

end Jos

import Jos.Sound
import Jos.TlbCode

/-!
# The page functions and the caches of the other processors

A page function changes entries of one address space.  If no processor in user
mode has loaded it, or the entry is absent, then every step of the function
leaves what these processors may have cached in the tables.
-/

namespace Jos

open Programs RefPool Tlbs

/-- The processors in user mode have loaded directories in use, and none of them
caches an entry of directory `d` to which `P` applies. -/
def Watched (k : Kernel) (c : Nat) (dirs : Finset Nat) (d : Nat)
    (P : Nat → Nat → Prop) : Prop :=
  ∀ c', c' ≠ c → mmu.running k c' → k.vm.cr3 c' ∈ dirs ∧
    (k.vm.cr3 c' = d → ∀ i j, P i j → entryOf k.vm.mem d i j = none)

/-- What a page function leaves: a change of memory. -/
abbrev VmPost {α : Type} (k : Kernel) (R : α → PhysMem → Prop) :
    Prop → α → Kernel → Prop := fun own a k' =>
  own = False ∧ ∃ m, k' = k.setVm m ∧ R a m

section Steps

variable {managed : Set Nat} {free : List Nat} {held dirs : Finset Nat}
  {k k' : Kernel} {m : PhysMem} {c e d t pp i j : Nat} {va perm : U32}
  {tc : ThisCpu} {P : Nat → Nat → Prop} {X : Kernel → Prop}

/-- A change that leaves the entries which other processors may have cached, and
what they run. -/
theorem careful_of_keep (hcr : k'.vm.cr3 = k.vm.cr3)
    (hcpus : ∀ c', c' ≠ c → k'.cpus c' = k.cpus c')
    (hpgdir : ∀ c' e, c' ≠ c → mmu.running k c' → k.curenv c' = some e →
      (k'.envs e).envPgdir = (k.envs e).envPgdir)
    (hkeep : ∀ c', c' ≠ c → mmu.running k c' → ∀ i j w, i < userPdes →
      j < nptentries → entryOf k.vm.mem (k.vm.cr3 c') i j = some w →
      entryOf k'.vm.mem (k.vm.cr3 c') i j = some w) :
    mmu.Careful c False k k' := by
  refine ⟨fun c' hne hr => ?_, False.elim⟩
  have hcpu := hcpus c' hne
  have hr' : mmu.running k c' := by
    have hr : (k'.cpus c').place = .user := hr
    rwa [hcpu] at hr
  refine ⟨hr', spares_of_eq (congrFun hcr c') ?_ (fun v w hv hw => ?_)⟩
  · have hcur : k'.curenv c' = k.curenv c' := congrArg CpuInfo.cpuEnv hcpu
    show (k'.curenv c').bind _ = (k.curenv c').bind _
    rw [hcur]
    cases hcase : k.curenv c' with
    | none => rfl
    | some e => exact hpgdir c' e hne hr' hcase
  · have hv : v < userPdes * 1024 := hv
    exact hkeep c' hne hr' _ _ w (by omega) (Nat.mod_lt _ (by decide)) hw

/-- A change of memory. -/
theorem careful_setVm (hcr : m.cr3 = k.vm.cr3)
    (hkeep : ∀ c', c' ≠ c → mmu.running k c' → ∀ i j w, i < userPdes →
      j < nptentries → entryOf k.vm.mem (k.vm.cr3 c') i j = some w →
      entryOf m.mem (k.vm.cr3 c') i j = some w) :
    mmu.Careful c False k (k.setVm m) :=
  careful_of_keep hcr (fun _ _ => rfl) (fun _ _ _ _ _ => rfl) hkeep

theorem careful_sameMem (hcr : m.cr3 = k.vm.cr3) (hmem : m.mem = k.vm.mem) :
    mmu.Careful c False k (k.setVm m) :=
  careful_setVm hcr (fun _ _ _ _ _ _ _ _ hw => by rwa [hmem])

theorem PhysMem.BooksOnly.careful (h : PhysMem.BooksOnly k.vm m) :
    mmu.Careful c False k (k.setVm m) := careful_sameMem h.cr3 h.mem

/-- Setting an entry that no other processor may have cached. -/
theorem careful_setEntry {w : U32} (hs : AddrSpaces managed dirs k.vm.mem)
    (hd : d ∈ dirs) (hi : i < userPdes) (ht : tableOf k.vm.mem d i = some t)
    (hw : Watched k c dirs d (fun i' j' => i' = i ∧ j' = j)) :
    mmu.Careful c False k (k.setVm (k.vm.setWord t j w)) := by
  refine careful_setVm rfl (fun c' hne hr i' j' w' hi' hj' hold => ?_)
  obtain ⟨hdirs, hnone⟩ := hw c' hne hr
  have hsets : SetsEntry dirs d i j w k.vm.mem (k.vm.setWord t j w).mem :=
    setsEntry_set hs hd hi ht
  rw [hsets.entry _ i' j' hdirs hi' hj', hold]
  rintro ⟨hdd, rfl, rfl⟩
  rw [hdd, hnone hdd i' j' ⟨rfl, rfl⟩] at hold
  exact absurd hold (by simp)

/-- Another state of memory, with the same entries where it matters. -/
theorem Watched.setVm (h : Watched k c dirs d P) (hcr : m.cr3 = k.vm.cr3)
    (hkeep : ∀ i j, P i j → entryOf k.vm.mem d i j = none →
      entryOf m.mem d i j = none) : Watched (k.setVm m) c dirs d P := by
  intro c' hne hr
  have hload : (k.setVm m).vm.cr3 c' = k.vm.cr3 c' := congrFun hcr c'
  obtain ⟨hdirs, hnone⟩ := h c' hne hr
  rw [hload]
  exact ⟨hdirs, fun hd i j hP => hkeep i j hP (hnone hd i j hP)⟩

/-! ## `page_remove` -/

/-- Removing an entry that is there. -/
theorem pageRemoveCode_some {w : U32} (hcpu : tc.cpu = c) (hc : ¬ mmu.running k c)
    (hs : AddrSpaces managed dirs k.vm.mem) (hd : d ∈ dirs) (hva : va < utop)
    (ht : tableOf k.vm.mem d (pdx va) = some t) (hn : t < k.vm.npages)
    (hentry : entryOf k.vm.mem d (pdx va) (ptx va) = some w)
    (hp : pgnum w < k.vm.npages)
    (hlink : (k.vm.pages (pgnum w)).ppLink = none)
    (hw : Watched k c dirs d (fun i j => i = pdx va ∧ j = ptx va)) :
    Sparing mmu c X (VmPost k (fun _ m =>
      m = k.vm.clearEntry tc d va (pgnum w) ⟨t, ptx va⟩)) False
      (pageRemoveCode tc d va) k := by
  have hi := (pdx_lt_userPdes va).mpr hva
  have hbooks := k.vm.dropRef_booksOnly (pgnum w)
  have hwhole : Returns ((pageRemoveCode tc d va).collapse mmu c)
      (fun _ k' => ∃ m, k' = k.setVm m ∧
        m = k.vm.clearEntry tc d va (pgnum w) ⟨t, ptx va⟩) k := by
    rw [← hcpu, collapse_pageRemoveCode]
    exact returns_iff.mpr ⟨(), _, onVm_ret (pageRemove_some ht hn hentry hp hlink), _,
      rfl, rfl⟩
  suffices hspare : Sparing mmu c X (fun own (_ : Unit) (_ : Kernel) => own = False)
      False (pageRemoveCode tc d va) k from hspare.and_collapse hwhole
  refine sparing_ret (onVm_ret (pageLookup_some ht hn hentry hp))
    (careful_refl _ _ _) hc ?_
  refine sparing_ret (onVm_ret (pageDecref_eq hlink)) hbooks.careful hc ?_
  have hw' : Watched (k.setVm (k.vm.dropRef (pgnum w))) c dirs d
      (fun i j => i = pdx va ∧ j = ptx va) :=
    hw.setVm hbooks.cr3 (fun i j _ hh => by rwa [hbooks.mem])
  refine sparing_ret (onVm_ret (writePte_eq _ _)) ?_ hc ?_
  · exact careful_setEntry (k := k.setVm (k.vm.dropRef (pgnum w)))
      (hbooks.mem ▸ hs) hd hi (by rw [Kernel.setVm_vm, hbooks.mem]; exact ht) hw'
  · unfold tlbInvalidateCode Code.when
    split <;> rfl

theorem pageRemoveCode_sparing (hcpu : tc.cpu = c) (hc : ¬ mmu.running k c)
    (h : Accounted managed free held dirs k.vm) (hd : d ∈ dirs) (hva : va < utop)
    (hmax : ∀ p, refCount k.vm.mem dirs p ≤ 65535)
    (hw : Watched k c dirs d (fun i j => i = pdx va ∧ j = ptx va)) :
    Sparing mmu c X (VmPost k (fun _ m => ∃ free',
      Removed managed free' held dirs d va k.vm m)) False
      (pageRemoveCode tc d va) k := by
  have hi := (pdx_lt_userPdes va).mpr hva
  have hj : ptx va < nptentries := ptx_lt va
  have hspare : Sparing mmu c X (fun own (_ : Unit) (_ : Kernel) => own = False) False
      (pageRemoveCode tc d va) k := by
    cases hentry : entryOf k.vm.mem d (pdx va) (ptx va) with
    | none =>
        exact sparing_ret (onVm_ret (pageLookup_none (fun t ht => h.table_lt hd hi ht)
          hentry)) (careful_refl _ _ _) hc rfl
    | some w =>
        obtain ⟨t, ht, -, -⟩ := entryOf_eq_some.mp hentry
        have hpage : mappedPage k.vm.mem d (pdx va) (ptx va) = some (pgnum w) :=
          mappedPage_eq_some.mpr ⟨w, hentry, rfl⟩
        have hpos := refCount_pos_of_page hd hi hj hpage
        exact (pageRemoveCode_some hcpu hc h.spaces hd hva ht (h.table_lt hd hi ht) hentry
          (h.page_lt hd hi hj hpage) (h.ledger.link_none _
            (h.spaces.page_managed d _ _ _ hd hi hj hpage)
            (h.ledger.pool.not_free_of_referenced (by omega))) hw).mono
          (fun _ _ _ hh => hh.1)
  subst hcpu
  refine (hspare.and_collapse (R := fun _ k' => ∃ m, k' = k.setVm m ∧ ∃ free',
    Removed managed free' held dirs d va k.vm m) ?_).mono (fun _ _ _ hh => hh)
  rw [collapse_pageRemoveCode]
  exact onVm_returns (pageRemove_returns h hd hva hmax)

/-! ## `page_insert` -/

/-- The last step: the new entry is written into a slot without one. -/
theorem writeEntry_sparing {w : U32} {Q : Prop → Int → Kernel → Prop}
    {m₀ : PhysMem} (hc : ¬ mmu.running k c) (hd : d ∈ dirs) (hva : va < utop)
    (hcleared : SlotCleared managed free held dirs d va t pp m₀ k.vm)
    (hw : ∀ c', c' ≠ c → mmu.running k c' → k.vm.cr3 c' ∈ dirs)
    (hQ : Q False 0 (k.setVm (k.vm.setWord t (ptx va) w))) :
    Sparing mmu c X Q False (do
      vmStep (writePte ⟨t, ptx va⟩ w)
      pure 0) k := by
  have hi := (pdx_lt_userPdes va).mpr hva
  refine sparing_ret (onVm_ret (writePte_eq _ _)) ?_ hc hQ
  refine careful_setEntry hcleared.spaces hd hi hcleared.here
    (fun c' hne hr => ⟨hw c' hne hr, fun _ i j hij => ?_⟩)
  rw [hij.1, hij.2]
  exact hcleared.empty

theorem pageInsertCode_sparing (hcpu : tc.cpu = c) (hc : ¬ mmu.running k c)
    (h : Accounted managed free held dirs k.vm) (hd : d ∈ dirs) (hva : va < utop)
    (hpp : Mappable managed dirs k.vm.mem pp) (hfree : pp ∉ free)
    (hperm : PermFits perm pp)
    (hmax : ∀ p, refCount k.vm.mem dirs p ≤ 65535)
    (hw : Watched k c dirs d (fun i j => i = pdx va ∧ j = ptx va)) :
    Sparing mmu c X (VmPost k (fun r m =>
      (free = [] ∧ tableOf k.vm.mem d (pdx va) = none ∧ r = -eNoMem ∧ m = k.vm) ∨
        (r = 0 ∧ ∃ t free', Inserted managed free' (held.erase pp) dirs d va t
          (page2pa pp ||| perm ||| pteP) k.vm m))) False
      (pageInsertCode tc d pp va perm) k := by
  have hi := (pdx_lt_userPdes va).mpr hva
  have hj : ptx va < nptentries := ptx_lt va
  suffices hspare : Sparing mmu c X (fun own (_ : Int) (_ : Kernel) => own = False)
      False (pageInsertCode tc d pp va perm) k by
    refine hspare.and_collapse ?_
    rw [← hcpu, collapse_pageInsertCode]
    exact onVm_returns (pageInsert_inserts h hd hva hpp hfree hperm hmax)
  refine sparing_step (wp_of_returns (onVm_returns (pgdirWalk_returns h hd hva)) ?_)
  rintro r k₁ ⟨m₁, rfl, ⟨-, -, rfl, rfl⟩ | ⟨t, free₁, rfl, hready⟩⟩
  · exact ⟨careful_refl _ _ _, hc, rfl⟩
  have hcr : m₁.cr3 = k.vm.cr3 := hready.frame.cr3
  refine ⟨careful_setVm hcr (fun c' hne hr i j w hi hj hold => ?_), hc, ?_⟩
  · rw [hready.entries _ i j (hw c' hne hr).1 hi hj, hold]
  have hw₁ : Watched (k.setVm m₁) c dirs d (fun i j => i = pdx va ∧ j = ptx va) := by
    refine hw.setVm hcr (fun i j hij hold => ?_)
    rw [hij.1, hij.2] at hold ⊢
    rw [hready.entries d _ _ hd hi hj, hold]
  have hbooks := m₁.addRef_booksOnly pp
  refine sparing_ret (onVm_ret pageIncref_eq) hbooks.careful hc ?_
  have hw₂ : Watched (k.setVm (m₁.addRef pp)) c dirs d
      (fun i j => i = pdx va ∧ j = ptx va) :=
    hw₁.setVm (k := k.setVm m₁) hbooks.cr3 (fun i j _ hh => by rwa [hbooks.mem])
  show Sparing _ _ _ _ _ _ (k.setVm (m₁.addRef pp))
  refine sparing_ret (onVm_ret (readPte_eq _))
    (careful_refl _ _ _) hc ?_
  have hmax₁ : ∀ p, refCount m₁.mem dirs p ≤ 65535 := fun p =>
    (hready.counts p).trans (max_le (by decide) (hmax p))
  refine sparing_bind.mpr (sparing_when (fun hpres => ?_) (fun hpres => ?_))
  · have hpres : HasFlag (m₁.mem t (ptx va)) pteP := hpres
    have hentry : entryOf m₁.mem d (pdx va) (ptx va) = some (m₁.mem t (ptx va)) := by
      rw [entryOf_of_table hready.here, if_pos hpres]
    have hpage : mappedPage m₁.mem d (pdx va) (ptx va) =
        some (pgnum (m₁.mem t (ptx va))) := mappedPage_eq_some.mpr ⟨_, hentry, rfl⟩
    have hpos := refCount_pos_of_page hd hi hj hpage
    have hlink : ((m₁.addRef pp).pages (pgnum (m₁.mem t (ptx va)))).ppLink = none := by
      have hold := hready.accounted.ledger.link_none _
        (hready.accounted.spaces.page_managed d _ _ _ hd hi hj hpage)
        (hready.accounted.ledger.pool.not_free_of_referenced (by omega))
      by_cases hq : pgnum (m₁.mem t (ptx va)) = pp
      · rw [← hq]
        simpa [PhysMem.addRef, PhysMem.setRef] using hold
      · simpa [PhysMem.addRef, PhysMem.setRef, hq] using hold
    obtain ⟨free', hcleared⟩ := clearEntry_cleared tc h hready hd hi hpp.managed hfree
      hmax₁ hentry
    refine (pageRemoveCode_some (k := k.setVm (m₁.addRef pp)) hcpu hc
      hready.accounted.spaces hd hva hready.here
      (hready.accounted.table_lt hd hi hready.here) hentry
      (hready.accounted.page_lt hd hi hj hpage) hlink hw₂).mono ?_
    rintro own _ k₂ ⟨rfl, m₂, rfl, rfl⟩
    exact writeEntry_sparing (k := k.setVm _) hc hd hva hcleared
      (fun c' hne hr => by
        rw [Kernel.setVm_vm, PhysMem.clearEntry_cr3]
        exact (hw₂ c' hne hr).1) rfl
  · have hpres : ¬ HasFlag (m₁.mem t (ptx va)) pteP := hpres
    have hentry : entryOf m₁.mem d (pdx va) (ptx va) = none := by
      rw [entryOf_of_table hready.here, if_neg hpres]
    exact writeEntry_sparing (k := k.setVm _) hc hd hva
      (addRef_cleared h hready hpp.managed hfree hentry) (fun c' hne hr =>
        (hw₂ c' hne hr).1) rfl

/-! ## `env_free` -/

/-- No other processor in user mode runs environment `e`, whose directory is
`d`. -/
def Idle (k : Kernel) (c : Nat) (dirs : Finset Nat) (e d : Nat) : Prop :=
  ∀ c', c' ≠ c → mmu.running k c' →
    k.curenv c' ≠ some e ∧ k.vm.cr3 c' ∈ dirs ∧ k.vm.cr3 c' ≠ d

theorem Idle.watched (h : Idle k c dirs e d) : Watched k c dirs d P :=
  fun c' hne hr => ⟨(h c' hne hr).2.1, fun hd => absurd hd (h c' hne hr).2.2⟩

theorem Idle.setVm (h : Idle k c dirs e d)
    (hcr : ∀ c', c' ≠ c → m.cr3 c' = k.vm.cr3 c') : Idle (k.setVm m) c dirs e d := by
  intro c' hne hr
  have hload : (k.setVm m).vm.cr3 c' = k.vm.cr3 c' := hcr c' hne
  rw [hload]
  exact h c' hne hr

/-- One turn of the inner loop. -/
theorem envFreeEntryCode_sparing {m₀ : PhysMem} (hcpu : tc.cpu = c)
    (hc : ¬ mmu.running k c)
    (h : EntriesCleared managed held dirs d i j m₀ k.vm) (hd : d ∈ dirs)
    (hi : i < userPdes) (hj : j < nptentries) (ht : tableOf m₀.mem d i = some t)
    (hmax : ∀ p, refCount m₀.mem dirs p ≤ 65535) (hidle : Idle k c dirs e d) :
    Sparing mmu c X (VmPost k (fun _ m =>
      EntriesCleared managed held dirs d i (j + 1) m₀ m)) False
      (envFreeEntryCode tc d i t j) k := by
  suffices hspare : Sparing mmu c X (fun own (_ : Unit) (_ : Kernel) => own = False)
      False (envFreeEntryCode tc d i t j) k by
    refine hspare.and_collapse ?_
    rw [← hcpu, collapse_envFreeEntryCode]
    exact onVm_returns (envFreeEntry_returns h hd hi hj ht hmax)
  have hi' : i < 1024 := hi.trans_le (by decide)
  obtain ⟨free, hacc⟩ := h.accounted
  refine sparing_ret (onVm_ret (readPte_eq _)) (careful_refl _ _ _) hc ?_
  refine sparing_when (fun _ => ?_) (fun _ => rfl)
  have hva : pgaddr i j 0 < utop := by
    rw [← pdx_lt_userPdes, pdx_pgaddr hi' hj]
    exact hi
  exact (pageRemoveCode_sparing (k := k.setVm k.vm) hcpu hc hacc hd hva
    (fun p => (h.counts p).trans (hmax p)) hidle.watched).mono (fun _ _ _ hh => hh.1)

/-- One turn of the outer loop. -/
theorem envFreeTableCode_sparing {m₀ : PhysMem} (hcpu : tc.cpu = c)
    (hc : ¬ mmu.running k c)
    (h : TablesCleared managed held dirs d i m₀ k.vm) (hd : d ∈ dirs)
    (hi : i < userPdes) (hmax : ∀ p, refCount m₀.mem dirs p ≤ 65535)
    (hidle : Idle k c dirs e d) :
    Sparing mmu c X (VmPost k (fun _ m =>
      TablesCleared managed held dirs d (i + 1) m₀ m)) False
      (envFreeTableCode tc d i) k := by
  suffices hspare : Sparing mmu c X (fun own (_ : Unit) (_ : Kernel) => own = False)
      False (envFreeTableCode tc d i) k by
    refine hspare.and_collapse ?_
    rw [← hcpu, collapse_envFreeTableCode]
    exact onVm_returns (envFreeTable_returns h hd hi hmax)
  obtain ⟨free, hacc⟩ := h.accounted
  refine sparing_ret (onVm_ret (readPte_eq _)) (careful_refl _ _ _) hc ?_
  refine sparing_when (fun hpres => ?_) (fun _ => rfl)
  have ht : tableOf k.vm.mem d i = some (pgnum (k.vm.mem d i)) :=
    tableOf_eq_some.mpr ⟨hpres, rfl⟩
  have hlt := hacc.table_lt hd hi ht
  have hpa : ∀ m' : PhysMem, m'.npages = k.vm.npages →
      (kaddr (pteAddr (k.vm.mem d i))).run m' = .ret (pgnum (k.vm.mem d i)) m' := by
    intro m' hm'
    rw [kaddr_eq, pgnum_pteAddr]
    rw [pgnum_pteAddr, hm']
    exact hlt
  refine sparing_ret (onVm_ret (hpa k.vm rfl)) (careful_refl _ _ _) hc ?_
  refine sparing_bind.mpr ((sparing_forRange (fun j k' => ∃ m', k' = k.setVm m' ∧
    EntriesCleared managed held dirs d i j k.vm m') 0 nptentries ?_
    ⟨k.vm, rfl, .init hacc⟩).mono ?_)
  · rintro j _ - hj ⟨m', rfl, he⟩
    rw [Nat.zero_add] at hj
    refine (envFreeEntryCode_sparing (k := k.setVm m') hcpu hc he hd hi hj ht
      (fun p => (h.counts p).trans (hmax p))
      (hidle.setVm (fun c' _ => congrFun he.frame.cr3 c'))).mono ?_
    rintro own _ _ ⟨rfl, m'', rfl, he'⟩
    exact ⟨rfl, m'', rfl, he'⟩
  rintro own _ _ ⟨rfl, m', rfl, he⟩
  rw [Nat.zero_add] at he
  obtain ⟨free', hacc'⟩ := he.accounted
  have ht' : tableOf m'.mem d i = some (pgnum (k.vm.mem d i)) := by
    rw [he.tables d i hd hi, ht]
  have hdrops := dropsTable_set hacc'.spaces hd he.gone
  have hwatched : ∀ c', c' ≠ c → mmu.running k c' → m'.cr3 c' ∈ dirs :=
    fun c' hne hr => (hidle.setVm (fun c' _ => congrFun he.frame.cr3 c') c' hne hr).2.1
  refine sparing_ret (onVm_ret (writePte_eq _ _)) ?_ hc ?_
  · refine careful_setVm (k := k.setVm m') rfl (fun c' hne hr i' j' w hi' hj' hw => ?_)
    exact (hdrops.entry _ i' j' (hwatched c' hne hr) hi' hj').trans hw
  have hlink : ((m'.setWord d i 0#32).pages (pgnum (k.vm.mem d i))).ppLink = none := by
    have hpos := refCount_pos_of_table hd hi ht'
    exact hacc'.ledger.link_none _ (hacc'.spaces.table_managed d i _ hd hi ht')
      (hacc'.ledger.pool.not_free_of_referenced (by omega))
  refine sparing_ret (onVm_ret (hpa _ he.frame.npages)) (careful_refl _ _ _) hc ?_
  exact sparing_ret (onVm_ret (pageDecref_eq hlink))
    (PhysMem.BooksOnly.careful (k := k.setVm (m'.setWord d i 0#32))
      (PhysMem.dropRef_booksOnly _ _)) hc rfl

/-- Changing environments and books. -/
theorem careful_edit {own : Prop} (hcr : k'.vm.cr3 = k.vm.cr3)
    (hmem : k'.vm.mem = k.vm.mem)
    (hcpus : ∀ c', c' ≠ c → k'.cpus c' = k.cpus c')
    (hpgdir : ∀ c' e, c' ≠ c → mmu.running k c' → k.curenv c' = some e →
      (k'.envs e).envPgdir = (k.envs e).envPgdir)
    (hmine : own → mmu.owned k' c = mmu.owned k c) : mmu.Careful c own k k' := by
  refine ⟨(careful_of_keep hcr hcpus hpgdir (fun c' _ _ i j w _ _ hw => ?_)).others,
    fun ho => spares_of_eq (congrFun hcr c) (hmine ho) (fun v w _ hw => ?_)⟩
  · rw [hmem, hw]
  · have hw : entryOf k.vm.mem (k.vm.cr3 c) (v / 1024) (v % 1024) = some w := hw
    show entryOf k'.vm.mem (k.vm.cr3 c) (v / 1024) (v % 1024) = some w
    rw [hmem, hw]

/-- A step that edits environment `e` alone, which no other processor runs. -/
theorem Idle.careful (h : Idle k c dirs e d) (hcr : k'.vm.cr3 = k.vm.cr3)
    (hmem : k'.vm.mem = k.vm.mem) (hcpus : k'.cpus = k.cpus)
    (henvs : ∀ e', e' ≠ e → k'.envs e' = k.envs e') : mmu.Careful c False k k' :=
  careful_edit hcr hmem (fun c' _ => congrFun hcpus c')
    (fun c' e' hne hr hcur => by
      rw [henvs e' (fun he => (h c' hne hr).1 (he ▸ hcur))]) False.elim

theorem envFreeCode_sparing (hc : ¬ mmu.running k c)
    (h : Accounted managed free held (envDirs k) k.vm)
    (hmax : ∀ p, refCount k.vm.mem (envDirs k) p ≤ 65535)
    (he : e < nenv) (hd : (k.envs e).envPgdir = some d)
    (hidle : Idle k c (envDirs k) e d) :
    Sparing mmu c X (fun own _ k' => own = False ∧ Freed managed held c e d k k') False
      (envFreeCode c e) k := by
  suffices hspare : Sparing mmu c X (fun own (_ : Unit) (_ : Kernel) => own = False)
      False (envFreeCode c e) k by
    refine hspare.and_collapse ?_
    rw [collapse_envFreeCode]
    exact envFree_returns h hmax he hd
  have hdir : d ∈ envDirs k := mem_envDirs.mpr ⟨e, he, hd⟩
  refine sparing_ret (Prog.run_get k) (careful_refl _ _ _) hc ?_
  simp only [hd]
  refine sparing_bind.mpr (Sparing.mono (Q := fun own _ k' => own = False ∧
    k' = k.setVm (k.vm.leaveDir c (k.curenv c = some e))) (sparing_when (fun hcur => ?_)
    (fun hcur => ?_)) ?_)
  · refine ⟨False, False.elim, rfl, ?_⟩
    rw [PhysMem.leaveDir, if_pos hcur]
    rfl
  · rw [PhysMem.leaveDir, if_neg hcur]
    exact ⟨rfl, rfl⟩
  rintro own _ _ ⟨rfl, rfl⟩
  generalize hm₀ : k.vm.leaveDir c (k.curenv c = some e) = m₀
  have hacc₀ : Accounted managed free held (envDirs k) m₀ := hm₀ ▸ h.leaveDir c _
  have hmax₀ : ∀ p, refCount m₀.mem (envDirs k) p ≤ 65535 := by
    rw [← hm₀, leaveDir_mem]
    exact hmax
  have hidle₀ : Idle (k.setVm m₀) c (envDirs k) e d := by
    refine hidle.setVm (fun c' hne => ?_)
    rw [← hm₀, PhysMem.leaveDir]
    split
    · exact Function.update_of_ne hne _ _
    · rfl
  refine sparing_bind.mpr ((sparing_forRange (fun i k' => ∃ m, k' = k.setVm m ∧
    TablesCleared managed held (envDirs k) d i m₀ m) 0 userPdes ?_
    ⟨m₀, rfl, .init hacc₀⟩).mono ?_)
  · rintro i _ - hi ⟨m, rfl, hcleared⟩
    rw [Nat.zero_add] at hi
    have hcpu : (k.thisCpu c).cpu = c := rfl
    refine (envFreeTableCode_sparing (k := k.setVm m) hcpu hc hcleared hdir hi hmax₀
      (hidle₀.setVm (fun c' _ => congrFun hcleared.frame.cr3 c'))).mono ?_
    rintro own _ _ ⟨rfl, m', rfl, hcleared'⟩
    exact ⟨rfl, m', rfl, hcleared'⟩
  rintro own _ _ ⟨rfl, m, rfl, hcleared⟩
  rw [Nat.zero_add] at hcleared
  obtain ⟨free', hacc'⟩ := hcleared.accounted
  have hdm := hacc'.spaces.dir_managed d hdir
  have hlt := hacc'.ledger.managed_lt d hdm
  have hnum := pgnum_page2pa (hacc'.ledger.lt_two_pow hdm)
  have hpp : (pa2page (page2pa d)).run m = .ret d m := by
    rw [pa2page_eq, hnum]
    rw [hnum]
    exact hlt
  have hlink : (m.pages d).ppLink = none := by
    have hpos : 0 < refCount m.mem (envDirs k) d := refCount_pos_of_dir hdir
    exact hacc'.ledger.link_none d hdm
      (hacc'.ledger.pool.not_free_of_referenced (by omega))
  have hidle' : Idle (k.setVm m) c (envDirs k) e d :=
    hidle₀.setVm (fun c' _ => congrFun hcleared.frame.cr3 c')
  have hidle'' : Idle (((k.setVm m).setPgdir e none).setVm (m.dropRef d)) c (envDirs k)
      e d := hidle'.setVm (fun c' _ => congrFun (PhysMem.dropRef_booksOnly m d).cr3 c')
  refine sparing_ret (Prog.run_modify _ _) (hidle'.careful rfl rfl rfl
    (fun e' hne => Kernel.modifyEnv_envs_of_ne hne)) hc ?_
  refine sparing_ret (onVm_ret hpp) (careful_refl _ _ _) hc ?_
  refine sparing_ret (onVm_ret (pageDecref_eq hlink))
    (PhysMem.BooksOnly.careful (k := (k.setVm m).setPgdir e none)
      (PhysMem.dropRef_booksOnly _ _)) hc ?_
  exact sparing_ret (Prog.run_modify _ _) (hidle''.careful rfl rfl rfl
    (fun e' hne => Function.update_of_ne hne _ _)) hc rfl

/-! ## `env_run` -/

/-- A step that edits the current environment's fields, or which one it is, on
processor `c`. -/
theorem careful_envs {own : Prop} (hvm : k'.vm = k.vm)
    (hcpus : ∀ c', c' ≠ c → k'.cpus c' = k.cpus c')
    (hpgdir : ∀ e, (k'.envs e).envPgdir = (k.envs e).envPgdir)
    (hmine : own → k'.curenv c = k.curenv c) : mmu.Careful c own k k' := by
  refine careful_edit (by rw [hvm]) (by rw [hvm]) hcpus
    (fun _ e _ _ _ => hpgdir e) (fun ho => ?_)
  show (k'.curenv c).bind _ = (k.curenv c).bind _
  rw [hmine ho]
  exact Option.bind_congr (fun e _ => hpgdir e)

theorem modifyEnv_pgdir {f : Env → Env} (hf : ∀ v, (f v).envPgdir = v.envPgdir)
    (e' : Nat) : ((k.modifyEnv e f).envs e').envPgdir = (k.envs e').envPgdir := by
  by_cases he : e' = e
  · subst he
    rw [Kernel.modifyEnv_envs_self, hf]
  · rw [Kernel.modifyEnv_envs_of_ne he]

theorem envRunCode_sparing (hc : ¬ mmu.running k c) (hd : (k.envs e).envPgdir = some d)
    (hlock : k.kernelLock = some c) :
    Sparing mmu c (fun k' => k' = k.dispatched c e d) (fun _ _ _ => False) False
      (envRunCode c e) k := by
  suffices hspare : Sparing mmu c (fun _ => True)
      (fun (_ : Prop) (_ : Unit) (_ : Kernel) => True) False (envRunCode c e) k by
    have hwhole : wp ((envRunCode c e).collapse mmu c)
        ⟨fun _ _ => False, fun k' => k' = k.dispatched c e d, fun _ => True⟩ k := by
      rw [collapse_envRunCode]
      exact wp_of_exit (envRun_exits hd hlock) rfl
    exact ((hspare.and_wp hwhole).mono_exit (fun _ hh => hh.2)).mono
      (fun _ _ _ hh => hh.2)
  have hplace : ∀ {k' : Kernel}, (k'.cpus c).place = (k.cpus c).place →
      ¬ mmu.running k' c := fun hp hr => hc (hp.symm.trans hr)
  have hpre : k.preempt c = { k with envs := (k.preempt c).envs } := preempt_rest
  have hplace₁ : ((k.preempt c).cpus c).place = (k.cpus c).place := by rw [hpre]
  have hpgdir₁ : ∀ e', ((k.preempt c).envs e').envPgdir = (k.envs e').envPgdir := by
    intro e'
    rw [preempt_envs]
    split <;> rfl
  refine sparing_ret (Prog.run_modify _ _) (careful_envs (by rw [hpre])
    (fun c' _ => by rw [hpre]) hpgdir₁ False.elim) (hplace hplace₁) ?_
  generalize k.preempt c = k₁ at hplace₁ hpgdir₁
  have hplace₂ : ((k₁.setCurenv c (some e)).cpus c).place = (k.cpus c).place := by
    rw [Kernel.setCurenv, Kernel.modifyCpu_cpus_self]
    exact hplace₁
  refine sparing_ret (Prog.run_modify _ _) (careful_envs rfl
    (fun c' hne => Kernel.modifyCpu_cpus_of_ne hne) (fun _ => rfl) False.elim)
    (hplace hplace₂) ?_
  have hcur₂ : (k₁.setCurenv c (some e)).curenv c = some e := by
    show ((k₁.setCurenv c (some e)).cpus c).cpuEnv = some e
    rw [Kernel.setCurenv, Kernel.modifyCpu_cpus_self]
  have hd₂ : ((k₁.setCurenv c (some e)).envs e).envPgdir = some d :=
    (hpgdir₁ e).trans hd
  generalize k₁.setCurenv c (some e) = k₂ at hplace₂ hcur₂ hd₂
  let status : Env → Env := fun v => { v with envStatus := .running }
  let runs : Env → Env := fun v => { v with envRuns := v.envRuns + 1#32 }
  have hedit : ∀ (k' : Kernel) (f : Env → Env), (∀ v, (f v).envPgdir = v.envPgdir) →
      mmu.Careful c False k' (k'.modifyEnv e f) := fun k' f hf =>
    careful_envs rfl (fun _ _ => rfl) (modifyEnv_pgdir hf) False.elim
  refine sparing_ret (Prog.run_modify _ _) (hedit k₂ status (fun _ => rfl))
    (hplace hplace₂) ?_
  refine sparing_ret (Prog.run_modify _ _)
    (hedit (k₂.modifyEnv e status) runs (fun _ => rfl)) (hplace hplace₂) ?_
  refine sparing_ret (Prog.run_get _) (careful_refl _ _ _) (hplace hplace₂) ?_
  let k₃ := (k₂.modifyEnv e status).modifyEnv e runs
  have hd₃ : (k₃.envs e).envPgdir = some d :=
    ((modifyEnv_pgdir (f := runs) (fun _ => rfl) e).trans
      (modifyEnv_pgdir (f := status) (fun _ => rfl) e)).trans hd₂
  have howned : mmu.owned k₃ c = some d := by
    show (k₂.curenv c).bind _ = some d
    rw [hcur₂]
    exact hd₃
  have hpgdir₃ : (((k₂.setStatus e .running).modifyEnv e
      (fun v => { v with envRuns := v.envRuns + 1#32 })).envs e).envPgdir = some d := hd₃
  rw [hpgdir₃]
  show Sparing _ _ _ _ _ _ k₃
  refine ⟨True, fun _ => howned, ?_⟩
  generalize mmu.lcr3 c d k₃ = k₄
  let k₅ := ((k₄.setLock none).modifyEnv e (fun v => { v with envCpunum := c })).setPlace c
    .user
  have hlast : mmu.Careful c True k₄ k₅ := by
    refine careful_envs rfl (fun c' hne => Kernel.modifyCpu_cpus_of_ne hne)
      (fun e' => ?_) (fun _ => ?_)
    · exact modifyEnv_pgdir (k := k₄.setLock none)
        (f := fun v => { v with envCpunum := c }) (fun _ => rfl) e'
    · show (k₅.cpus c).cpuEnv = (k₄.cpus c).cpuEnv
      simp only [k₅, Kernel.setPlace, Kernel.modifyCpu_cpus_self]
      rfl
  refine sparing_act.mpr ?_
  by_cases hl : k₄.kernelLock = some c
  · refine wp_of_exit (?_ : _ = Outcome.exit k₅) ⟨hlast, trivial, trivial⟩
    rw [Prog.run_bind_ret (unlockKernel_eq hl)]
    rfl
  · refine wp_of_stop (?_ : _ = Outcome.stop k₄) trivial
    rw [Prog.run_bind, unlockKernel, Prog.run_bind_ret (Prog.run_get k₄), if_neg hl]
    rfl

end Steps

end Jos

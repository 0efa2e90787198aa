import Jos.UserStores

/-!
# Operations that keep memory

What each operation on address spaces does to the page tables: it sets at most
one entry below `UTOP`, and the invariant of memory holds again after it.  The
operation must be safe for this: a permission word must not change the page
that an entry names, no counter may overflow, and where the kernel stores
through an address that it has not checked, the address must be the user's.
-/

namespace Jos

open Programs RefPool

/-- What the code does not check, and the invariant of memory needs. -/
def VmOp.Safe (k : Kernel) (c : Nat) : VmOp → Prop
  | newPage _ _ perm => ∀ pg, k.vm.pageFreeList = some pg → PermFits perm pg
  | share src srcva _ _ perm => ∀ ds w, (k.envs src).envPgdir = some ds →
      entryOf k.vm.mem ds (pdx srcva) (ptx srcva) = some w →
      PermFits perm (pgnum w) ∧ (k.vm.pages (pgnum w)).ppRef ≠ 0xFFFF#16
  | unmap _ _ => True
  | patch tf => ∀ n, 52 ≤ n → n < 60 → k.UserAddr c (tf + BitVec.ofNat 32 n)
  | pushFrame _ _ => True
  | receive addr len => (∀ n, n < 4 → k.UserAddr c (len + BitVec.ofNat 32 n)) ∧
      ∀ n, n < (k.e1000.rxDescArray k.e1000.next).length.toNat →
        k.UserAddr c (addr + BitVec.ofNat 32 n)

/-- What the code has checked. -/
def VmOp.Valid (k : Kernel) : VmOp → Prop
  | newPage e va _ => k.Live e ∧ va < utop
  | share src srcva e va _ =>
      k.Live src ∧ srcva < utop ∧ k.Live e ∧ va < utop
  | unmap e va => k.Live e ∧ va < utop
  | patch _ => True
  | pushFrame utr words => ∀ n, n < (words.flatMap bytesOfU32).length →
      utr + BitVec.ofNat 32 n < utop
  | receive _ _ => True

/-- The operation may set the entry at `i`, `j` of directory `d`, and to what. -/
def VmOp.Sets (k : Kernel) (d i j : Nat) (new : Option U32) : VmOp → Prop
  | newPage e va perm => (k.envs e).envPgdir = some d ∧ i = pdx va ∧ j = ptx va ∧
      ∃ pg, k.vm.pageFreeList = some pg ∧
        new = some (page2pa pg ||| perm ||| pteP)
  | share src srcva e va perm =>
      (k.envs e).envPgdir = some d ∧ i = pdx va ∧ j = ptx va ∧
      ∃ ds w, (k.envs src).envPgdir = some ds ∧
        entryOf k.vm.mem ds (pdx srcva) (ptx srcva) = some w ∧
        new = some (page2pa (pgnum w) ||| perm ||| pteP)
  | unmap e va => (k.envs e).envPgdir = some d ∧ i = pdx va ∧ j = ptx va ∧
      new = none
  | _ => False

/-- Memory has changed, and what the directories map only as `sets` says. -/
structure Altered (managed : Set Nat)
    (sets : Nat → Nat → Nat → Option U32 → Prop) (k k' : Kernel) : Prop where
  memory : Memory managed k'
  procs : SameProcs k k'
  frame : VmFrame managed (envDirs k) k.vm k'.vm
  entries : ∀ d i j, d ∈ envDirs k → i < userPdes → j < nptentries →
    entryOf k'.vm.mem d i j = entryOf k.vm.mem d i j ∨
      sets d i j (entryOf k'.vm.mem d i j)

section Operations

variable {managed : Set Nat} {k k' : Kernel} {c e d : Nat}
  {sets : Nat → Nat → Nat → Option U32 → Prop}

theorem Stored.altered (h : Stored managed k k') : Altered managed sets k k' :=
  ⟨h.memory, h.procs, h.frame, fun d i j hd hi hj =>
    Or.inl (h.views.entry d i j hd hi hj)⟩

theorem Memory.live_pgdir (h : Memory managed k) (he : k.Live e) :
    ∃ d, (k.envs e).envPgdir = some d ∧ d ∈ envDirs k :=
  h.books.live_pgdir he

/-- A page that has just been allocated is mapped. -/
theorem insertNew_altered {zero : Bool} {pg : Nat} {m₁ m₂ : PhysMem}
    {va perm : U32} (h : Memory managed k) (hdir : d ∈ envDirs k)
    (hva : va < utop) (hperm : PermFits perm pg)
    (halloc : (pageAlloc zero).run k.vm = .ret (some pg) m₁)
    (hrun : (pageInsert (k.thisCpu c) d pg va perm).run m₁ = .ret 0 m₂) :
    Altered managed (fun d' i j new => d' = d ∧ i = pdx va ∧ j = ptx va ∧
      new = some (page2pa pg ||| perm ||| pteP)) k (k.setVm m₂) := by
  obtain ⟨free, hacc⟩ := h.books.accounted
  rcases (pageAlloc_returns zero hacc).value halloc with
    ⟨-, hnone, -⟩ | ⟨p, free', rfl, hp, hall⟩
  · exact absurd hnone (by simp)
  obtain rfl := Option.some.inj hp
  have hcount := hall.views.refCount_eq
  have hzero := hacc.free_unreferenced (List.mem_cons_self (a := pg))
  have hheld : pg ∈ insert pg (∅ : Finset Nat) := Finset.mem_insert_self _ _
  have hzero₁ := hall.accounted.ledger.pool.held_unreferenced pg hheld
  have hmap : Mappable managed (envDirs k) m₁.mem pg :=
    ⟨hall.accounted.ledger.pool.held_managed pg hheld,
      Accounted.not_dir_of_unreferenced hzero₁,
      fun d i hd hi => Accounted.not_table_of_unreferenced hzero₁ hd hi⟩
  rcases (pageInsert_inserts hall.accounted hdir hva hmap
    (hall.accounted.ledger.pool.not_free_of_held hheld) hperm
    (fun p => by rw [hcount]; exact h.counts p)).value hrun with
    ⟨-, -, h0, -⟩ | ⟨-, t, free₂, hins⟩
  · exact absurd h0 (by decide)
  rw [Finset.erase_insert (Finset.notMem_empty _)] at hins
  have hframe := hall.frame.trans hins.frame
  refine ⟨h.setVm hins.accounted hframe (fun p => ?_), sameProcs_setVm _, hframe,
    fun d' i j hd' hi hj => ?_⟩
  · refine (hins.counts p).trans ?_
    rw [hperm, hcount]
    have hle := h.counts p
    by_cases hp : p = pg
    · rw [if_pos hp, hp, hzero]
      decide
    · rw [if_neg hp]
      omega
  · by_cases hspot : d' = d ∧ i = pdx va ∧ j = ptx va
    · obtain ⟨rfl, rfl, rfl⟩ := hspot
      exact Or.inr ⟨rfl, rfl, rfl, hins.here⟩
    · exact Or.inl ((hins.entries d' i j hd' hi hj hspot).trans
        (hall.views.entry d' i j hd' hi hj))

/-- A page that could not be mapped is free again. -/
theorem giveBack_altered {zero : Bool} {pg : Nat} {m₁ m₂ : PhysMem}
    (h : Memory managed k)
    (halloc : (pageAlloc zero).run k.vm = .ret (some pg) m₁)
    (hrun : (pageFree pg).run m₁ = .ret () m₂) :
    Altered managed sets k (k.setVm m₂) := by
  obtain ⟨free, hacc⟩ := h.books.accounted
  rcases (pageAlloc_returns zero hacc).value halloc with
    ⟨-, hnone, -⟩ | ⟨p, free', rfl, hp, hall⟩
  · exact absurd hnone (by simp)
  obtain rfl := Option.some.inj hp
  have hheld : pg ∈ insert pg (∅ : Finset Nat) := Finset.mem_insert_self _ _
  obtain ⟨rfl, hacc₂⟩ := (pageFree_returns hall.accounted hheld).value hrun
  rw [Finset.erase_insert (Finset.notMem_empty _)] at hacc₂
  have hmem := (m₁.pushFree_booksOnly pg).mem
  have hframe := hall.frame.trans (m₁.pushFree_booksOnly pg).vmFrame
  refine ⟨h.setVm hacc₂ hframe (fun p => ?_), sameProcs_setVm _, hframe,
    fun d' i j hd' hi hj => Or.inl ?_⟩
  · rw [hmem, hall.views.refCount_eq]
    exact h.counts p
  · rw [Kernel.setVm_vm, hmem]
    exact hall.views.entry d' i j hd' hi hj

/-- The page that `page_alloc` gives is the first of the free list. -/
theorem pageAlloc_some {zero : Bool} {pg : Nat} {m₁ : PhysMem}
    (h : Memory managed k)
    (halloc : (pageAlloc zero).run k.vm = .ret (some pg) m₁) :
    k.vm.pageFreeList = some pg ∧ pg < 2 ^ 20 := by
  obtain ⟨free, hacc⟩ := h.books.accounted
  rcases (pageAlloc_returns zero hacc).value halloc with
    ⟨-, hnone, -⟩ | ⟨p, free', rfl, hp, -⟩
  · exact absurd hnone (by simp)
  obtain rfl := Option.some.inj hp
  exact ⟨hacc.ledger.freeList_eq,
    hacc.ledger.lt_two_pow (hacc.free_managed List.mem_cons_self)⟩

/-- A new page is mapped, or nothing changes for want of memory. -/
theorem newPage_altered {va perm : U32}
    (h : Memory managed k) (hv : (VmOp.newPage e va perm).Valid k)
    (hsafe : (VmOp.newPage e va perm).Safe k c)
    (hdoes : (VmOp.newPage e va perm).Does c k k') :
    Altered managed (fun d i j new => (VmOp.newPage e va perm).Sets k d i j new)
      k k' := by
  obtain ⟨d, pg, m₁, m₂, hd, halloc, ⟨hrun, rfl⟩ | ⟨r, m₃, hr, hrun, hfree, rfl⟩⟩ :=
    hdoes
  · obtain ⟨hlist, -⟩ := pageAlloc_some h halloc
    have halt := insertNew_altered (c := c) h
      (mem_envDirs.mpr ⟨e, hv.1.1, hd⟩) hv.2 (hsafe pg hlist) halloc hrun
    refine ⟨halt.memory, halt.procs, halt.frame, fun d' i j hd' hi hj =>
      (halt.entries d' i j hd' hi hj).imp_right ?_⟩
    rintro ⟨rfl, hi, hj, hnew⟩
    exact ⟨hd, hi, hj, pg, hlist, hnew⟩
  · rcases pageInsert_ret hrun with h0 | ⟨-, rfl⟩
    · exact absurd h0 hr
    · exact giveBack_altered h halloc hfree

/-- A page that is mapped is mapped again. -/
theorem share_altered {src : Nat} {srcva va perm : U32}
    (h : Memory managed k) (hv : (VmOp.share src srcva e va perm).Valid k)
    (hsafe : (VmOp.share src srcva e va perm).Safe k c)
    (hdoes : (VmOp.share src srcva e va perm).Does c k k') :
    Altered managed
      (fun d i j new => (VmOp.share src srcva e va perm).Sets k d i j new)
      k k' := by
  obtain ⟨free, hacc⟩ := h.books.accounted
  obtain ⟨ds, d, w, r, m, hds, hd, hw, hrun, rfl⟩ := hdoes
  obtain ⟨hsrc, hsrcva, he, hva⟩ := hv
  obtain ⟨hperm, href⟩ := hsafe ds w hds hw
  have hdir : d ∈ envDirs k := mem_envDirs.mpr ⟨e, he.1, hd⟩
  have hmaps : k.Maps (pgnum w) := ⟨ds, _, _, mem_envDirs.mpr ⟨src, hsrc.1, hds⟩,
    (pdx_lt_userPdes srcva).mpr hsrcva, ptx_lt srcva,
    mappedPage_eq_some.mpr ⟨w, hw, rfl⟩⟩
  have hmap := h.books.mappable (Or.inr hmaps)
  rcases (pageInsert_inserts hacc hdir hva hmap (hacc.not_free (Or.inr hmaps))
    hperm h.counts).value hrun with ⟨-, -, -, rfl⟩ | ⟨-, t, free', hins⟩
  · exact ⟨h, .refl k, .refl _ _ _, fun _ _ _ _ _ _ => Or.inl rfl⟩
  · rw [Finset.erase_eq_of_notMem (Finset.notMem_empty _)] at hins
    have hbelow : refCount k.vm.mem (envDirs k) (pgnum w) < 65535 := by
      refine Nat.lt_of_le_of_ne (h.counts _) (fun hh => href ?_)
      rw [hacc.ledger.ref_eq _ hmap.managed, hh]
    refine ⟨h.setVm hins.accounted hins.frame (fun p => ?_), sameProcs_setVm _,
      hins.frame, fun d' i j hd' hi hj => ?_⟩
    · refine (hins.counts p).trans ?_
      rw [hperm]
      have hle := h.counts p
      by_cases hp : p = pgnum w
      · rw [if_pos hp, hp]
        omega
      · rw [if_neg hp]
        omega
    · by_cases hspot : d' = d ∧ i = pdx va ∧ j = ptx va
      · obtain ⟨rfl, rfl, rfl⟩ := hspot
        exact Or.inr ⟨hd, rfl, rfl, ds, w, hds, hw, hins.here⟩
      · exact Or.inl (hins.entries d' i j hd' hi hj hspot)

/-- A page is unmapped. -/
theorem unmap_altered {va : U32}
    (h : Memory managed k) (hv : (VmOp.unmap e va).Valid k)
    (hdoes : (VmOp.unmap e va).Does c k k') :
    Altered managed (fun d i j new => (VmOp.unmap e va).Sets k d i j new)
      k k' := by
  obtain ⟨free, hacc⟩ := h.books.accounted
  obtain ⟨d, m, hd, hrun, rfl⟩ := hdoes
  have hdir : d ∈ envDirs k := mem_envDirs.mpr ⟨e, hv.1.1, hd⟩
  obtain ⟨free', hrem⟩ :=
    (pageRemove_returns hacc hdir hv.2 h.counts).value hrun
  refine ⟨h.setVm hrem.accounted hrem.frame
    (fun p => (hrem.counts p).trans (h.counts p)), sameProcs_setVm _,
    hrem.frame, fun d' i j hd' hi hj => ?_⟩
  by_cases hspot : d' = d ∧ i = pdx va ∧ j = ptx va
  · obtain ⟨rfl, rfl, rfl⟩ := hspot
    refine Or.inr ⟨hd, rfl, rfl, ?_⟩
    exact hrem.entry.here.trans (if_neg (not_hasFlag_zero pteP))
  · exact Or.inl (hrem.entry.entry d' i j hd' hi hj hspot)

/-- More bytes are stored, through addresses that were harmless before. -/
theorem Stored.storeBytes {k₁ : Kernel} {va : U32} {bs : List U8}
    (hs : Stored managed k k₁) (h : Memory managed k)
    (hcr : k.vm.cr3 c ∈ envDirs k)
    (hh : ∀ n, n < bs.length → k.Harmless c (va + BitVec.ofNat 32 n)) :
    wp (storeBytes c va bs)
      (Partial (fun _ k' => Stored managed k k') (fun _ => False)) k₁ := by
  have hcr₁ : k₁.vm.cr3 c ∈ envDirs k₁ := by
    rw [hs.procs.envDirs_eq, hs.frame.cr3]
    exact hcr
  exact wp_mono (storeBytes_stored hs.memory hcr₁
    (fun n hn => hs.harmless h hcr (hh n hn)))
    (fun _ _ h₂ => hs.trans h₂) (fun _ h => h) (fun _ h => h)

theorem add_ofNat (a : U32) (m n : Nat) :
    a + BitVec.ofNat 32 m + BitVec.ofNat 32 n = a + BitVec.ofNat 32 (m + n) := by
  rw [BitVec.add_assoc, ← BitVec.ofNat_add]

/-- The trap frame at a user's address is made safe. -/
theorem patch_stored {tf : U32} (h : Memory managed k)
    (hcr : k.vm.cr3 c ∈ envDirs k) (hsafe : (VmOp.patch tf).Safe k c)
    (hdoes : (VmOp.patch tf).Does c k k') : Stored managed k k' := by
  have hh : ∀ m n, 52 ≤ m + n → m + n < 60 →
      k.Harmless c (tf + BitVec.ofNat 32 m + BitVec.ofNat 32 n) :=
    fun m n hlo hhi => by
      rw [add_ofNat]
      exact h.harmless hcr (hsafe (m + n) hlo hhi)
  refine wp_ret (Q := Partial (fun _ k' => Stored managed k k')
    (fun _ => False)) ?_ hdoes
  unfold patchTf storeU32 storeU16
  refine partial_bind ((stored_of_quiet h (.refl k)).storeBytes h hcr
    (fun n hn => ?_)) (fun _ k₁ h₁ => ?_) (fun _ h => h)
  · have hn : n < 4 := hn
    exact hh 56 n (by omega) (by omega)
  refine partial_bind loadU32_wp (fun eflags k₂ h₂ => ?_) (fun _ h => h)
  have h₂ := h₁.trans (stored_of_quiet h₁.memory h₂)
  refine partial_bind (h₂.storeBytes h hcr (fun n hn => ?_))
    (fun _ k₃ h₃ => ?_) (fun _ h => h)
  · have hn : n < 4 := hn
    exact hh 56 n (by omega) (by omega)
  · refine h₃.storeBytes h hcr (fun n hn => ?_)
    have hn : n < 2 := hn
    exact hh 52 n (by omega) (by omega)

/-- An exception stack frame is written. -/
theorem pushFrame_stored {utr : U32} {words : List U32} (h : Memory managed k)
    (hcr : k.vm.cr3 c ∈ envDirs k) (hv : (VmOp.pushFrame utr words).Valid k)
    (hdoes : (VmOp.pushFrame utr words).Does c k k') : Stored managed k k' :=
  wp_ret (storeBytes_stored h hcr
    (fun n hn => Or.inl ((pdx_lt_userPdes _).mpr (hv n hn)))) hdoes

/-- A packet is copied out. -/
theorem receive_stored {addr len : U32} (h : Memory managed k)
    (hcr : k.vm.cr3 c ∈ envDirs k) (hsafe : (VmOp.receive addr len).Safe k c)
    (hdoes : (VmOp.receive addr len).Does c k k') : Stored managed k k' := by
  obtain ⟨r, hrun⟩ := hdoes
  obtain ⟨hlen, haddr⟩ := hsafe
  refine wp_ret (Q := Partial (fun _ k' => Stored managed k k')
    (fun _ => False)) ?_ hrun
  have hquiet := fun {k₁ k₂ : Kernel} (h₁ : Stored managed k k₁)
      (hq : Quiet k₁ k₂) => h₁.trans (stored_of_quiet h₁.memory hq)
  have hstart := stored_of_quiet h (.refl k)
  unfold e1000Receive
  rw [wp_get_bind]
  refine wp_ite (fun _ => hstart) (fun _ => wp_ite (fun _ => hstart) (fun _ => ?_))
  refine partial_bind (storeU32_loads h hcr
    (fun n hn => h.harmless hcr (hlen n hn))) ?_ (fun _ h => h)
  rintro _ k₁ ⟨h₁, hload⟩
  refine partial_bind hload ?_ (fun _ h => h)
  rintro n k₂ ⟨rfl, hq₂⟩
  refine partial_bind (R := fun _ k₃ => Stored managed k k₃)
    (X := fun _ => False) ?_
    (fun _ k₃ h₃ => hquiet h₃ (quiet_modifyNic _)) (fun _ h => h)
  refine wp_forRange (fun _ k₃ => Stored managed k k₃) 0 _
    (fun i k₃ _ hi h₃ => ?_) (fun _ h => h) (hquiet h₁ hq₂)
  have hi : i < (k.e1000.rxDescArray k.e1000.next).length.toNat := by
    have hle : ((k.e1000.rxDescArray k.e1000.next).length.setWidth 32).toNat =
        (k.e1000.rxDescArray k.e1000.next).length.toNat := by
      rw [BitVec.toNat_setWidth]
      have := (k.e1000.rxDescArray k.e1000.next).length.isLt
      omega
    omega
  have hcr₃ : k₃.vm.cr3 c ∈ envDirs k₃ := by
    rw [h₃.procs.envDirs_eq, h₃.frame.cr3]
    exact hcr
  exact wp_mono (storeByte_stored h₃.memory hcr₃
    (h₃.harmless h hcr (h.harmless hcr (haddr i hi))))
    (fun _ _ h₄ => h₃.trans h₄) (fun _ h => h) (fun _ h => h)

/-- An operation that is valid and safe keeps memory, and sets the entries that
it names. -/
theorem VmOp.Does.altered {op : VmOp} (hdoes : op.Does c k k')
    (h : Memory managed k) (hcr : k.vm.cr3 c ∈ envDirs k) (hv : op.Valid k)
    (hsafe : op.Safe k c) :
    Altered managed (fun d i j new => op.Sets k d i j new) k k' := by
  cases op with
  | newPage e va perm => exact newPage_altered h hv hsafe hdoes
  | share src srcva e va perm => exact share_altered h hv hsafe hdoes
  | unmap e va => exact unmap_altered h hv hdoes
  | patch tf => exact (patch_stored h hcr hsafe hdoes).altered
  | pushFrame utr words => exact (pushFrame_stored h hcr hv hdoes).altered
  | receive addr len => exact (receive_stored h hcr hsafe hdoes).altered

end Operations

end Jos

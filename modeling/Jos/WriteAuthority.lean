import Jos.Checks
import Jos.Confinement

/-!
# Write access is never created

`sys_page_map` and `sys_ipc_try_send` pass on write access only from a mapping
that has it.  So a page that no environment can write stays so until it has
been freed and is allocated again, whatever system calls are made.
-/

namespace Jos

open Programs LinkedList RefPool

/-- Some environment maps page `p` below `UTOP` with `PTE_W`. -/
def Kernel.Writes (k : Kernel) (p : Nat) : Prop :=
  ∃ e i j w, e < nenv ∧ i < userPdes ∧ j < nptentries ∧
    k.entry e i j = some w ∧ pgnum w = p ∧ HasFlag w pteW

/-- Page `p` is on `page_free_list`. -/
def Kernel.IsFree (k : Kernel) (p : Nat) : Prop :=
  ∃ free, Chain (fun p => (k.vm.pages p).ppLink) k.vm.pageFreeList free ∧
    p ∈ free

/-- A run that goes on from `k`, in which page `p` is not allocated. -/
inductive Unallocated (Ok : Kernel → Event → Prop) (p : Nat) (k : Kernel) :
    Kernel → Prop where
  | refl : Unallocated Ok p k k
  | step {k₁ k₂ : Kernel} (ev : Event) :
      Unallocated Ok p k k₁ → Ok k₁ ev → ev.step k₁ = some k₂ →
      ¬ (k₁.IsFree p ∧ ¬ k₂.IsFree p) → Unallocated Ok p k k₂

section WriteAuthority

variable {managed : Set Nat} {k k' : Kernel} {ev : Event} {p : Nat}

/-- The flags of a new entry are those of the permission word. -/
theorem hasFlag_newEntry {pp : Nat} {perm : U32}
    (h : HasFlag (page2pa pp ||| perm ||| pteP) pteW) : HasFlag perm pteW := by
  have hpa : ¬ HasFlag (page2pa pp) pteW := not_hasFlag_page2pa (by decide)
  rcases (hasFlag_or _ _ _).mp h with h | h
  · exact ((hasFlag_or _ _ _).mp h).resolve_left hpa
  · exact absurd h (by decide)

/-- The free pages are those of the list. -/
theorem Kernel.not_isFree {l : List Nat}
    (h : Chain (fun p => (k.vm.pages p).ppLink) k.vm.pageFreeList l) (hp : p ∉ l) :
    ¬ k.IsFree p := by
  rintro ⟨free, hfree, hmem⟩
  rw [hfree.unique h] at hmem
  exact hp hmem

/-- A page that is mapped is not free. -/
theorem Memory.not_isFree (hm : Memory managed k) {e i j : Nat} {w : U32}
    (he : e < nenv) (hi : i < userPdes) (hj : j < nptentries)
    (hw : k.entry e i j = some w) : ¬ k.IsFree (pgnum w) := by
  rintro ⟨free, hchain, hmem⟩
  obtain ⟨free', hacc⟩ := hm.books.accounted
  obtain ⟨d, hd, hentry⟩ := Option.bind_eq_some_iff.mp hw
  obtain rfl := hchain.unique hacc.ledger.chain
  exact hacc.not_free (Or.inr ⟨d, i, j, mem_envDirs.mpr ⟨e, he, hd⟩, hi, hj,
    mappedPage_eq_some.mpr ⟨w, hentry, rfl⟩⟩) hmem

/-- The page that `page_alloc` takes is free. -/
theorem Memory.isFree_head (hm : Memory managed k)
    (hp : k.vm.pageFreeList = some p) : k.IsFree p := by
  obtain ⟨free, hacc⟩ := hm.books.accounted
  refine ⟨free, hacc.ledger.chain, ?_⟩
  cases free with
  | nil => exact absurd (hp.symm.trans hacc.ledger.chain) (by simp)
  | cons q free =>
      obtain rfl := Option.some.inj (hp.symm.trans hacc.ledger.chain.1)
      exact List.mem_cons_self

/-- A clean step gives write access to no page that it does not allocate. -/
theorem Event.keeps_unwritten (h : Sound managed k) (hclean : ev.Clean k)
    (hstep : ev.step k = some k') (hp : ¬ k.Writes p)
    (halloc : ¬ (k.IsFree p ∧ ¬ k'.IsFree p)) : ¬ k'.Writes p := by
  rintro ⟨e, i, j, w, he, hi, hj, hw, rfl, hflag⟩
  rcases ev.entry_cases h hclean hstep he hi hj with heq | hset | hnone
  · exact hp ⟨e, i, j, w, he, hi, hj, heq.symm.trans hw, rfl, hflag⟩
  · obtain ⟨k₀, k₁, c, call, r, op, d, hserves, -, hop, hchecked, -, hset⟩ := hset
    obtain ⟨cur, hcur, -⟩ := hserves.runs
      (fun c hp => (h.order.procs.halted c).mpr hp) hstep
    obtain ⟨hsame, hserving⟩ := h.serving hserves hcur
    have hsafe := hclean.safe k₀ c call hserves op hop
    have hvalid := hop.valid hserving.order hserving.inKernel
    rw [hw] at hset
    cases op with
    | newPage e' va perm =>
        obtain ⟨-, -, -, pg, hlist, hnew⟩ := hset
        obtain rfl := Option.some.inj hnew
        have hpg : pgnum (page2pa pg ||| perm ||| pteP) = pg := hsafe pg hlist
        rw [hpg] at halloc
        refine halloc ⟨h.memory.isFree_head (hsame.mem.freeList.symm.trans hlist), ?_⟩
        rw [← hpg]
        exact (ev.sound h hclean hstep).memory.not_isFree he hi hj hw
    | share src srcva e' va perm =>
        obtain ⟨-, -, -, ds, ws, hds, hws, hnew⟩ := hset
        obtain rfl := Option.some.inj hnew
        obtain ⟨hfits, -⟩ := hsafe ds ws hds hws
        have hsource : k.entry src (pdx srcva) (ptx srcva) = some ws := by
          rw [← hsame.entry]
          unfold Kernel.entry
          rw [hds]
          exact hws
        rw [show pgnum (page2pa (pgnum ws) ||| perm ||| pteP) = pgnum ws
          from hfits] at hp
        exact hp ⟨src, _, _, ws, hvalid.1.1,
          (pdx_lt_userPdes srcva).mpr hvalid.2.1, ptx_lt srcva, hsource, rfl,
          hchecked.2 ds ws hds hws (hasFlag_newEntry hflag)⟩
    | unmap e' va => exact absurd hset.2.2.2 (by simp)
    | patch tf => exact hset
    | pushFrame utr words => exact hset
    | receive addr len => exact hset
  · exact absurd (hw.symm.trans hnone) (by simp)

end WriteAuthority

/-! ## A machine with a kernel page table -/

/-- A machine with `n` pages: page 0 holds `kern_pgdir`, page 1 the page table
that maps memory at `KERNBASE`, and the others are free, in order. -/
def mappedMemory (n : Nat) : PhysMem :=
  { bootMemory n with
    pages := fun p =>
      { ppLink := if 1 < p ∧ p + 1 < n then some (p + 1) else none
        ppRef := if p < 2 then 1#16 else 0#16 }
    pageFreeList := some 2
    mem := fun p i =>
      if p = 0 ∧ i = 0x3C0 then page2pa 1 ||| pteP ||| pteW ||| pteU
      else if p = 1 ∧ i < 1024 then page2pa i ||| pteP ||| pteW
      else 0#32 }

theorem mappedMemory_dir {n i t : Nat}
    (ht : tableOf (mappedMemory n).mem (mappedMemory n).kernPgdir i = some t) :
    i = 0x3C0 ∧ t = 1 := by
  obtain ⟨hp, rfl⟩ := tableOf_eq_some.mp ht
  have hi : i = 0x3C0 := by
    refine Classical.byContradiction (fun hi => ?_)
    simp [mappedMemory, bootMemory, hi, HasFlag] at hp
  subst hi
  have hpage : pgnum (page2pa 1 ||| pteP ||| pteW ||| pteU) = 1 := by decide
  exact ⟨rfl, hpage⟩

theorem mappedMemory_leaves {n : Nat} (hn : 2 < n) (hmax : n ≤ 65536) :
    MemInitLeaves {p | 1 < p ∧ p < n} (mappedMemory n) where
  freeList := by
    refine ⟨List.range' 2 (n - 2), Chain.range' (by omega)
      (fun j hj hj' => ?_) ?_, ?_⟩
    · have : 1 < j ∧ j + 1 < n := by omega
      simp [mappedMemory, this]
    · have : ¬ (1 < 2 + (n - 2) - 1 ∧ 2 + (n - 2) - 1 + 1 < n) := by omega
      simp only [mappedMemory, if_neg this]
    · intro p
      rw [List.mem_range'_1, Set.mem_ofPred_eq]
      omega
  unreferenced p hp := by
    have : ¬ p < 2 := Nat.not_lt.mpr hp.1
    simp only [mappedMemory, if_neg this]
  managed_lt p hp := hp.2
  npages_le := hmax
  kernDir := by
    refine ⟨fun i hi hp => ?_, fun h => absurd h.1 (Nat.not_lt_zero 1), ?_, ?_⟩
    · obtain ⟨rfl, -⟩ := mappedMemory_dir (n := n)
        (tableOf_eq_some.mpr ⟨hp, rfl⟩)
      exact absurd hi (by decide)
    · intro i t _ _ _ ht
      obtain ⟨-, rfl⟩ := mappedMemory_dir ht
      exact fun h => absurd h.1 (by decide)
    · intro i t j _ _ _ ht hj hflags
      obtain ⟨-, rfl⟩ := mappedMemory_dir ht
      have hj : j < 1024 := hj
      have hword : (mappedMemory n).mem 1 j = page2pa j ||| pteP ||| pteW := by
        simp [mappedMemory, hj]
      rw [hword] at hflags
      rcases (hasFlag_or _ _ _).mp hflags.1 with h | h
      · rcases (hasFlag_or _ _ _).mp h with h | h
        · exact not_hasFlag_page2pa (by decide) h
        · exact absurd h (by decide)
      · exact absurd h (by decide)

/-- The machine with this memory before the first environment is created. -/
def mappedKernel (n ncpu : Nat) : Kernel :=
  (bootKernel n ncpu).setVm (mappedMemory n)

theorem mappedKernel_leaves {n : Nat} (hn : 2 < n) (hmax : n ≤ 65536)
    (ncpu : Nat) : InitLeaves {p | 1 < p ∧ p < n} (mappedKernel n ncpu) :=
  ⟨mappedMemory_leaves hn hmax, { mappedKernel n ncpu with
    envs := fun _ => Env.zero }, fun _ => rfl, rfl⟩

theorem mappedKernel_booted {n ncpu count : Nat} {k : Kernel} (hn : 2 < n)
    (hmax : n ≤ 65536) (h : createEnvs (mappedKernel n ncpu) count = some k) :
    Booted {p | 1 < p ∧ p < n} k :=
  (Booted.init (mappedKernel_leaves hn hmax ncpu) (fun _ => rfl) (fun _ => rfl)
    rfl).createEnvs h

section Forking

variable {k : Kernel} {c : Nat} {tf : Trapframe} {io : Inputs} {call : Call}

theorem exofork_clean (hcall : tf.call = some call) (hno : call.no = .exofork) :
    (Event.trap c tf io).Clean k := by
  refine trap_clean hcall (fun cur _ op hop => ?_) (fun cur _ op hop => ?_)
  · cases hop with
    | envDestroy h _ => exact absurd (hno.symm.trans h) (by decide)
    | exofork _ _ => trivial
    | setStatus h _ _ => exact absurd (hno.symm.trans h) (by decide)
    | setTrapframe _ _ => trivial
    | setUpcall _ _ => trivial
    | ipcTrySend h _ _ => exact absurd (hno.symm.trans h) (by decide)
  · cases hop with
    | pageAlloc h _ _ => exact absurd (hno.symm.trans h) (by decide)
    | pageMap h _ _ _ _ => exact absurd (hno.symm.trans h) (by decide)
    | pageUnmap _ _ _ => trivial
    | ipcTrySend h _ _ _ _ _ => exact absurd (hno.symm.trans h) (by decide)
    | setTrapframe h _ => exact absurd (hno.symm.trans h) (by decide)
    | pktRecv h => exact absurd (hno.symm.trans h) (by decide)

end Forking

/-- No page table of an environment names page `p`. -/
def Kernel.unnamed (k : Kernel) (p : Nat) : Bool :=
  (List.range nenv).all fun e => (k.envs e).envPgdir.all fun d =>
    (List.range userPdes).all fun i => (tableOf k.vm.mem d i).all fun t =>
      (List.range nptentries).all fun j => pgnum (k.vm.mem t j) != p

theorem Kernel.not_writes_of_unnamed {k : Kernel} {p : Nat}
    (h : k.unnamed p = true) : ¬ k.Writes p := by
  rintro ⟨e, i, j, w, he, hi, hj, hw, hp, -⟩
  obtain ⟨d, hd, hentry⟩ := Option.bind_eq_some_iff.mp hw
  obtain ⟨t, ht, hword⟩ := entryOf_eq_some.mp hentry
  unfold Kernel.unnamed at h
  rw [List.all_eq_true] at h
  have hdir := h e (List.mem_range.mpr he)
  rw [hd, Option.all_some, List.all_eq_true] at hdir
  have htable := hdir i (List.mem_range.mpr hi)
  rw [ht, Option.all_some, List.all_eq_true] at htable
  have hname := htable j (List.mem_range.mpr hj)
  rw [hword.1] at hname
  exact absurd hp (bne_iff_ne.mp hname)

/-- `sys_exofork` on processor 0. -/
def forkEvent : Event := callEvent 0 7 0 0 0 0 0

theorem forkEvent_clean (k : Kernel) : forkEvent.Clean k :=
  exofork_clean (rfl : _ = some (⟨.exofork, 0, 0, 0, 0, 0⟩ : Call)) rfl

/-- A page table is freed as in `tableFreed`; the kernel page table is page
1. -/
def mappedTableFreed : List Event :=
  [.start 0, callEvent 0 5 0 0xeebfd000#32 0 0xeebfc000#32 0x7007#32,
    callEvent 0 6 0 0xeebfc000#32 0 0 0]

end Jos

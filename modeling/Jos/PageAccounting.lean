import Jos.EnvTable

/-!
# Pages are accounted for in every run

A *run* starts where `mem_init` and `env_init` leave the machine and goes on
with calls of the page allocator, of the page-table functions and of
`env_alloc` and `env_free`, in any order and from any processor.  The callers
keep the contracts of the functions (`PageCall.Allowed`); the pages they hold
between `page_alloc` and `page_insert` or `page_free` are part of the state of
the run.

One call keeps the books (`PageCall.exec_books`), so every run does
(`Reached.books`); and no call that keeps its contract panics
(`PageCall.exec_returns`).
-/

namespace Jos

open Programs LinkedList RefPool

/-! ## The first state -/

/-- What `mem_init` leaves: the free pages are linked, unreferenced and below
`npages`, the kernel's window covers all of memory, and `kern_pgdir` maps
nothing below `UTOP`. -/
structure MemInitLeaves (managed : Set Nat) (m : PhysMem) : Prop where
  freeList : ∃ free, Chain (fun p => (m.pages p).ppLink) m.pageFreeList free ∧
    ∀ p, p ∈ free ↔ p ∈ managed
  unreferenced : ∀ p, p ∈ managed → (m.pages p).ppRef = 0#16
  managed_lt : ∀ p, p ∈ managed → p < m.npages
  npages_le : m.npages ≤ 65536
  kernDir : KernDir managed m

/-- The state after `mem_init` and `env_init`. -/
structure InitLeaves (managed : Set Nat) (k : Kernel) : Prop where
  memory : MemInitLeaves managed k.vm
  envs : ∃ k₀ : Kernel, (∀ e, k₀.envs e = Env.zero) ∧ k = envInit k₀

/-- The free list of `env_init` has the slots in order. -/
theorem envInit_chain (k : Kernel) (hzero : ∀ e, k.envs e = Env.zero) :
    Chain (fun e => ((envInit k).envs e).envLink) (some 0)
      (List.range' 0 nenv) := by
  refine Chain.range' (by decide) (fun j _ hj => ?_) ?_
  · rw [Nat.zero_add] at hj
    simp [envInit, hj]
  · have hlast : ¬ (nenv - 1 + 1 < nenv) := by omega
    rw [Nat.zero_add]
    simp only [envInit, if_neg hlast, hzero]
    rfl

theorem envInit_table (k : Kernel) (hzero : ∀ e, k.envs e = Env.zero) :
    EnvTable (envInit k) where
  freeChain := by
    refine ⟨List.range' 0 nenv, envInit_chain k hzero, ?_⟩
    intro e
    rw [List.mem_range'_1]
    simp [envInit]
  pgdir_none e _ := by simp [envInit, hzero, Env.zero]
  pgdir_inj e e' d _ _ h := by simp [envInit, hzero, Env.zero] at h
  id_slot e _ h := by simp [envInit] at h

section Init

variable {managed : Set Nat} {k : Kernel}

theorem InitLeaves.envDirs_eq (h : InitLeaves managed k) : envDirs k = ∅ := by
  obtain ⟨k₀, hzero, rfl⟩ := h.envs
  refine Finset.eq_empty_of_forall_notMem (fun d hd => ?_)
  obtain ⟨e, -, hd⟩ := mem_envDirs.mp hd
  simp [envInit, hzero, Env.zero] at hd

/-- With no environment, the books are those of the allocator alone. -/
theorem InitLeaves.books (h : InitLeaves managed k) : Books managed ∅ k := by
  obtain ⟨free, hchain, hmem⟩ := h.memory.freeList
  refine ⟨⟨free, ?_⟩, h.memory.kernDir, ?_⟩
  · rw [h.envDirs_eq]
    refine ⟨⟨hchain, ⟨hchain.nodup, fun p hp => (hmem p).mp hp, by simp,
      by simp, fun p hp => by simp [hmem p, hp]⟩, ?_, ?_, h.memory.managed_lt,
      h.memory.npages_le⟩, by simp, by simp, by simp, by simp, by simp,
      by simp, by simp⟩
    · intro p hp
      rw [h.memory.unreferenced p hp, refCount_empty]
    · intro p hp hfree
      exact absurd ((hmem p).mpr hp) hfree
  · obtain ⟨k₀, hzero, rfl⟩ := h.envs
    exact envInit_table k₀ hzero

end Init

/-- A machine with `n` pages: page 0 holds an empty `kern_pgdir`, and the
others are free, in order. -/
def bootMemory (n : Nat) : PhysMem :=
  { npages := n
    pages := fun p =>
      { ppLink := if 0 < p ∧ p + 1 < n then some (p + 1) else none
        ppRef := if p = 0 then 1#16 else 0#16 }
    pageFreeList := some 1
    kernPgdir := 0
    mem := fun _ _ => 0#32
    userMemCheckAddr := 0#32
    cr3 := fun _ => 0
    tlb := fun _ _ => none }

theorem bootMemory_leaves {n : Nat} (hn : 1 < n) (hmax : n ≤ 65536) :
    MemInitLeaves {p | 0 < p ∧ p < n} (bootMemory n) where
  freeList := by
    refine ⟨List.range' 1 (n - 1), Chain.range' (by omega)
      (fun j hj hj' => ?_) ?_, ?_⟩
    · have : 0 < j ∧ j + 1 < n := by omega
      simp [bootMemory, this]
    · have : ¬ (0 < 1 + (n - 1) - 1 ∧ 1 + (n - 1) - 1 + 1 < n) := by omega
      simp [bootMemory]
      omega
    · intro p
      rw [List.mem_range'_1, Set.mem_ofPred_eq]
      omega
  unreferenced p hp := by
    have : p ≠ 0 := Nat.pos_iff_ne_zero.mp hp.1
    simp [bootMemory, this]
  managed_lt p hp := hp.2
  npages_le := hmax
  kernDir := by
    refine ⟨fun i _ => not_hasFlag_zero pteP, fun h => absurd h.1 (Nat.lt_irrefl 0),
      ?_, ?_⟩
    · intro i t _ _ _ ht
      exact absurd (tableOf_eq_some.mp ht).1 (not_hasFlag_zero pteP)
    · intro i t j _ _ _ ht
      exact absurd (tableOf_eq_some.mp ht).1 (not_hasFlag_zero pteP)

/-- The machine before the first environment is created. -/
def bootKernel (n ncpu : Nat) : Kernel :=
  envInit
    { vm := bootMemory n
      envs := fun _ => Env.zero
      envFreeList := none
      cpus := fun _ => ⟨.started, none, .boot⟩
      ncpu := ncpu
      kernelLock := none
      ticks := 0#32
      e1000 :=
        { tdt := 0
          txDescArray := fun _ => ⟨0#16, 0#8, 0x01#8⟩
          txBufferArray := fun _ => 0#8
          rdt := 127
          next := 0
          rxDescArray := fun _ => ⟨0#16, 0#8, 0#8⟩
          rxBufferArray := fun _ => 0#8 }
      console := []
      trace := [] }

theorem bootKernel_leaves {n : Nat} (hn : 1 < n) (hmax : n ≤ 65536)
    (ncpu : Nat) :
    InitLeaves {p | 0 < p ∧ p < n} (bootKernel n ncpu) :=
  ⟨bootMemory_leaves hn hmax, ⟨_, fun _ => rfl, rfl⟩⟩

/-! ## Calls -/

/-- The machine, and the pages that callers hold. -/
structure PageState where
  k : Kernel
  held : Finset Nat

/-- The calls of a run. -/
inductive PageCall where
  | envAlloc (parentId : U32)
  | envFree (c e : Nat)
  | pageAlloc (zero : Bool)
  | pageFree (pp : Nat)
  | pageInsert (c e pp : Nat) (va perm : U32)
  | pageRemove (c e : Nat) (va : U32)

/-- Slot `e` holds an environment. -/
def Kernel.Live (k : Kernel) (e : Nat) : Prop :=
  e < nenv ∧ (k.envs e).envStatus ≠ .free

/-- Some environment maps page `pp` below `UTOP`. -/
def Kernel.Maps (k : Kernel) (pp : Nat) : Prop :=
  ∃ d i j, d ∈ envDirs k ∧ i < userPdes ∧ j < nptentries ∧
    mappedPage k.vm.mem d i j = some pp

namespace PageCall

/-- The contracts of the functions. -/
def Allowed (s : PageState) : PageCall → Prop
  | envAlloc _ => True
  | envFree _ e => s.k.Live e
  | pageAlloc _ => True
  | pageFree pp => pp ∈ s.held
  | pageInsert _ e pp va perm =>
      s.k.Live e ∧ va < utop ∧ perm.toNat < 0x1000 ∧
        (pp ∈ s.held ∨ s.k.Maps pp)
  | pageRemove _ e va => s.k.Live e ∧ va < utop

/-- Run a function of the kernel with the page directory of slot `e`. -/
def onPgdir {α : Type} (k : Kernel) (e : Nat) (f : Nat → Prog PhysMem α) :
    Prog Kernel α :=
  match (k.envs e).envPgdir with
  | none => Prog.stop
  | some pgdir => onVm (f pgdir)

/-- The program of a call.  Its value says how the set of held pages changes. -/
def prog (k : Kernel) : PageCall → Prog Kernel (Finset Nat → Finset Nat)
  | envAlloc parentId => do
      let _ ← Jos.envAlloc parentId
      pure id
  | envFree c e => do
      Jos.envFree c e
      pure id
  | pageAlloc zero => do
      match ← onVm (Jos.pageAlloc zero) with
      | none => pure id
      | some pp => pure (insert pp)
  | pageFree pp => do
      onVm (Jos.pageFree pp)
      pure (fun held => held.erase pp)
  | pageInsert c e pp va perm => do
      let r ← onPgdir k e
        (fun pgdir => Jos.pageInsert (k.thisCpu c) pgdir pp va perm)
      pure (fun held => if r = 0 then held.erase pp else held)
  | pageRemove c e va => do
      onPgdir k e (fun pgdir => Jos.pageRemove (k.thisCpu c) pgdir va)
      pure id

/-- The state after a call, unless it panics. -/
def exec (call : PageCall) (s : PageState) : Option PageState :=
  match (call.prog s.k).run s.k with
  | .ret f k => some ⟨k, f s.held⟩
  | .exit _ => none
  | .stop _ => none

end PageCall

/-- The states of a run from `s₀` in which no page is mapped more often than a
counter can count. -/
inductive Reached (s₀ : PageState) : PageState → Prop where
  | init : Reached s₀ s₀
  | call {s s' : PageState} (call : PageCall) :
      Reached s₀ s → call.Allowed s → call.exec s = some s' →
      (∀ p, mapCount s'.k.vm.mem (envDirs s'.k) p ≤ 65535) →
      Reached s₀ s'

/-! ## One call -/

section Call

variable {managed : Set Nat} {free : List Nat} {held : Finset Nat} {k : Kernel}
  {e d pp : Nat}

theorem Books.live_pgdir (h : Books managed held k) (he : k.Live e) :
    ∃ d, (k.envs e).envPgdir = some d ∧ d ∈ envDirs k := by
  cases hd : (k.envs e).envPgdir with
  | none => exact absurd ((h.table.pgdir_none e he.1).mp hd) he.2
  | some d => exact ⟨d, rfl, mem_envDirs.mpr ⟨e, he.1, hd⟩⟩

/-- Changing physical memory alone leaves the table as it was. -/
theorem Books.setVm
    (h : Books managed held k) {held' : Finset Nat} {vm : PhysMem}
    {free' : List Nat}
    (hacc : Accounted managed free' held' (envDirs k) vm)
    (hf : VmFrame managed (envDirs k) k.vm vm) :
    Books managed held' (k.setVm vm) := by
  refine ⟨⟨free', ?_⟩, h.kernDir.of_frame hf, ?_⟩
  · rw [envDirs_setVm]
    exact hacc
  · exact ⟨⟨h.table.freeChain, h.table.pgdir_none, h.table.id_slot⟩,
      h.table.pgdir_inj⟩

/-- A held page may be mapped, and so may a page that is mapped already. -/
theorem Books.mappable
    (h : Books managed held k) (hpp : pp ∈ held ∨ k.Maps pp) :
    Mappable managed (envDirs k) k.vm.mem pp := by
  obtain ⟨free, hacc⟩ := h.accounted
  rcases hpp with hheld | ⟨d, i, j, hd, hi, hj, hp⟩
  · have h0 := hacc.ledger.pool.held_unreferenced pp hheld
    exact ⟨hacc.ledger.pool.held_managed pp hheld,
      Accounted.not_dir_of_unreferenced h0,
      fun d i hd hi => Accounted.not_table_of_unreferenced h0 hd hi⟩
  · exact ⟨hacc.spaces.page_managed d i j pp hd hi hj hp,
      hacc.spaces.page_not_dir d i j pp hd hi hj hp,
      fun d' i' hd' hi' =>
        hacc.spaces.page_not_table d i j pp d' i' hd hi hj hd' hi' hp⟩

theorem Accounted.not_free
    {dirs : Finset Nat} {m : PhysMem}
    (h : Accounted managed free held dirs m)
    (hpp : pp ∈ held ∨ ∃ d i j, d ∈ dirs ∧ i < userPdes ∧ j < nptentries ∧
      mappedPage m.mem d i j = some pp) :
    pp ∉ free := by
  rcases hpp with hheld | ⟨d, i, j, hd, hi, hj, hp⟩
  · exact h.ledger.pool.not_free_of_held hheld
  · have hpos := refCount_pos_of_page hd hi hj hp
    exact h.ledger.pool.not_free_of_referenced (by omega)

theorem onPgdir_eq {α : Type} {f : Nat → Prog PhysMem α}
    (hd : (k.envs e).envPgdir = some d) :
    PageCall.onPgdir k e f = onVm (f d) := by
  unfold PageCall.onPgdir
  rw [hd]

end Call

/-- A call that keeps its contract returns, and keeps the books. -/
theorem PageCall.prog_books
    {managed : Set Nat} {s : PageState} (call : PageCall)
    (h : Books managed s.held s.k)
    (hmax : ∀ p, refCount s.k.vm.mem (envDirs s.k) p ≤ 65535)
    (hallowed : call.Allowed s) :
    Returns (call.prog s.k)
      (fun f k' => Books managed (f s.held) k') s.k := by
  obtain ⟨free, hacc⟩ := h.accounted
  cases call with
  | envAlloc parentId =>
      refine returns_bind (envAlloc_returns hacc h.kernDir parentId) ?_
      rintro r k' (⟨-, -, rfl⟩ | ⟨-, -, -, rfl⟩ |
        ⟨e, p, free', vm, hlist, -, -, rfl, hadd⟩)
      · exact h
      · exact h
      · exact Books.alloc h.table h.kernDir hlist hadd
  | envFree c e =>
      obtain ⟨d, hd, -⟩ := h.live_pgdir hallowed
      refine returns_bind (envFree_returns hacc hmax hallowed.1 hd) ?_
      intro _ k' hf
      exact h.release hallowed.1 hd hf
  | pageAlloc zero =>
      refine returns_bind (onVm_returns (pageAlloc_returns zero hacc)) ?_
      rintro r _ ⟨vm, rfl, ⟨-, rfl, rfl⟩ | ⟨p, free', -, rfl, ha⟩⟩
      · exact h
      · exact h.setVm ha.accounted ha.frame
  | pageFree pp =>
      refine returns_bind (onVm_returns (pageFree_returns hacc hallowed)) ?_
      rintro _ _ ⟨vm, rfl, rfl, hacc'⟩
      exact h.setVm hacc' (s.k.vm.pushFree_booksOnly pp).vmFrame
  | pageInsert c e pp va perm =>
      obtain ⟨hlive, hva, hperm, hpp⟩ := hallowed
      obtain ⟨d, hd, hdir⟩ := h.live_pgdir hlive
      simp only [PageCall.prog, onPgdir_eq hd]
      refine returns_bind (onVm_returns (pageInsert_inserts hacc hdir hva
        (h.mappable hpp) (hacc.not_free hpp) (permFits_of_lt
        (hacc.ledger.lt_two_pow (h.mappable hpp).managed) hperm) hmax)) ?_
      rintro r _ ⟨vm, rfl, ⟨-, -, rfl, rfl⟩ | ⟨rfl, t, free', hins⟩⟩
      · exact h
      · exact h.setVm hins.accounted hins.frame
  | pageRemove c e va =>
      obtain ⟨hlive, hva⟩ := hallowed
      obtain ⟨d, hd, hdir⟩ := h.live_pgdir hlive
      simp only [PageCall.prog, onPgdir_eq hd]
      refine returns_bind
        (onVm_returns (pageRemove_returns hacc hdir hva hmax)) ?_
      rintro _ _ ⟨vm, rfl, free', hrem⟩
      exact h.setVm hrem.accounted hrem.frame

/-- No call that keeps its contract panics. -/
theorem PageCall.exec_returns
    {managed : Set Nat} {s : PageState} (call : PageCall)
    (h : Books managed s.held s.k)
    (hmax : ∀ p, refCount s.k.vm.mem (envDirs s.k) p ≤ 65535)
    (hallowed : call.Allowed s) :
    ∃ s', call.exec s = some s' ∧ Books managed s'.held s'.k := by
  obtain ⟨f, k', hrun, hbooks⟩ :=
    returns_iff.mp (call.prog_books h hmax hallowed)
  exact ⟨⟨k', f s.held⟩, by rw [exec, hrun], hbooks⟩

/-! ## Every run -/

section Run

variable {managed : Set Nat} {k₀ : Kernel} {s : PageState}

/-- The books are kept in every run, with every count in range. -/
theorem Reached.books
    (h₀ : InitLeaves managed k₀) (h : Reached ⟨k₀, ∅⟩ s) :
    Books managed s.held s.k ∧
      ∀ p, refCount s.k.vm.mem (envDirs s.k) p ≤ 65535 := by
  induction h with
  | init =>
      refine ⟨h₀.books, fun p => ?_⟩
      rw [h₀.envDirs_eq, refCount_empty]
      exact Nat.zero_le _
  | call call _ hallowed hexec hmap ih =>
      obtain ⟨s', hs', hbooks⟩ := call.exec_returns ih.1 ih.2 hallowed
      obtain rfl := Option.some.inj (hs'.symm.trans hexec)
      obtain ⟨free, hacc⟩ := hbooks.accounted
      exact ⟨hbooks, fun p => (hacc.spaces.refCount_le p).trans
        (max_le (by decide) (hmap p))⟩

/-- In every state of every run the free list is acyclic and without
duplicates, it has exactly the pages with no reference and no holder, and the
counter of every page is the number of its references. -/
theorem pages_accounted
    (h₀ : InitLeaves managed k₀) (h : Reached ⟨k₀, ∅⟩ s) :
    ∃ free, Chain (fun p => (s.k.vm.pages p).ppLink) s.k.vm.pageFreeList free ∧
      free.Nodup ∧
      (∀ p, p ∈ free ↔
        p ∈ managed ∧ (s.k.vm.pages p).ppRef = 0#16 ∧ p ∉ s.held) ∧
      (∀ p, p ∈ managed → (s.k.vm.pages p).ppRef.toNat =
        refCount s.k.vm.mem (envDirs s.k) p) ∧
      (∀ p, p ∈ free → refCount s.k.vm.mem (envDirs s.k) p = 0) := by
  obtain ⟨hbooks, hmax⟩ := h.books h₀
  obtain ⟨free, hacc⟩ := hbooks.accounted
  have hcount : ∀ p, p ∈ managed → (s.k.vm.pages p).ppRef.toNat =
      refCount s.k.vm.mem (envDirs s.k) p := by
    intro p hp
    have := hmax p
    rw [hacc.ledger.ref_eq p hp, BitVec.toNat_ofNat]
    omega
  refine ⟨free, hacc.ledger.chain, hacc.ledger.pool.nodup, ?_, hcount,
    fun p hp => hacc.free_unreferenced hp⟩
  intro p
  constructor
  · intro hp
    have hpm := hacc.free_managed hp
    refine ⟨hpm, ?_, hacc.ledger.pool.free_not_held hp⟩
    rw [hacc.ledger.ref_eq p hpm, hacc.free_unreferenced hp]
  · rintro ⟨hpm, href, hheld⟩
    refine (hacc.ledger.pool.mem_free p hpm).mpr ⟨?_, hheld⟩
    rw [← hcount p hpm, href]
    rfl

theorem pages_accounted_after_alloc :
    ∃ s, PageCall.exec (.pageAlloc false) ⟨bootKernel 4 1, ∅⟩ = some s ∧
      s.held = {1} ∧
      ∃ free, Chain (fun p => (s.k.vm.pages p).ppLink) s.k.vm.pageFreeList free ∧
        free.Nodup ∧
        (∀ p, p ∈ free ↔ p ∈ {p | 0 < p ∧ p < 4} ∧
          (s.k.vm.pages p).ppRef = 0#16 ∧ p ∉ s.held) ∧
        (∀ p, p ∈ {p | 0 < p ∧ p < 4} → (s.k.vm.pages p).ppRef.toNat =
          refCount s.k.vm.mem (envDirs s.k) p) ∧
        (∀ p, p ∈ free → refCount s.k.vm.mem (envDirs s.k) p = 0) := by
  have h₀ := bootKernel_leaves (n := 4) (by decide) (by decide) 1
  have hexec : PageCall.exec (.pageAlloc false) ⟨bootKernel 4 1, ∅⟩ =
      some ⟨(bootKernel 4 1).setVm ((bootMemory 4).popFree 1), {1}⟩ := rfl
  refine ⟨_, hexec, rfl, pages_accounted h₀
    (Reached.call (.pageAlloc false) .init trivial hexec (fun p => ?_))⟩
  rw [envDirs_setVm, h₀.envDirs_eq]
  exact (mapCount_eq_zero (fun _ _ _ hd => absurd hd (by simp))).le.trans
    (Nat.zero_le _)

end Run

end Jos

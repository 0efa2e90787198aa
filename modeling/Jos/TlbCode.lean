import Jos.Lib.Tlb
import Jos.PageAccounting
import Jos.Steps

/-!
# Page functions step by step

`page_remove`, `page_insert`, `env_free` and `env_run` again, cut into the steps
between which another processor may read a page table: each is the code of
`kern/pmap.c` or `kern/env.c`, with every store to a page table, `invlpg` and
`lcr3` a step of its own.  As a whole each is the function of the source
(`collapse_pageRemoveCode` and so on).
-/

namespace Jos

open Programs Tlbs

/-- The paging hardware: pages and entries are numbers and words, and a space is
a page directory. -/
def mmu : Mmu Kernel Nat Nat U32 where
  loaded k c := k.vm.cr3 c
  owned k c := (k.curenv c).bind (fun e => (k.envs e).envPgdir)
  translate k d v := entryOf k.vm.mem d (v / 1024) (v % 1024)
  running k c := (k.cpus c).place = .user
  invlpg c v k := k.setVm { k.vm with
    tlb := Function.update k.vm.tlb c (Function.update (k.vm.tlb c) v none) }
  lcr3 c d k := k.setVm (k.vm.loadCr3 c d)
  guarded v := v < userPdes * 1024
  grants w' w := pgnum w' = pgnum w ∧ (HasFlag w pteW → HasFlag w' pteW)
  grants_refl _ := ⟨rfl, id⟩
  grants_trans _ _ _ h h' := ⟨h.1.trans h'.1, fun hw => h.2 (h'.2 hw)⟩
  translate_invlpg _ _ _ := rfl
  loaded_invlpg _ _ _ := rfl
  owned_invlpg _ _ _ := rfl
  running_invlpg _ _ _ := rfl
  translate_lcr3 _ _ _ := rfl
  loaded_lcr3 _ _ _ := rfl
  owned_lcr3 _ _ _ := rfl
  running_lcr3 _ _ _ := rfl

/-- Code of the kernel. -/
abbrev KernCode (α : Type) : Type 1 := Code Kernel Nat Nat α

/-- A step that runs a function of `kern/pmap.c`. -/
def vmStep {α : Type} (p : Prog PhysMem α) : KernCode α := .lift (onVm p)

/-! ## The functions -/

/-- `tlb_invalidate`. -/
def tlbInvalidateCode (tc : ThisCpu) (pgdir : Nat) (va : U32) : KernCode Unit :=
  Code.when (tc.curPgdir = none ∨ tc.curPgdir = some (some pgdir))
    (.invlpg (pgnum va) (.ret ()))

/-- `page_remove`. -/
def pageRemoveCode (tc : ThisCpu) (pgdir : Nat) (va : U32) : KernCode Unit := do
  match ← vmStep (pageLookup pgdir va) with
  | none => pure ()
  | some (pp, pte) => do
      vmStep (pageDecref pp)
      vmStep (writePte pte 0#32)
      tlbInvalidateCode tc pgdir va

/-- `page_insert`. -/
def pageInsertCode (tc : ThisCpu) (pgdir pp : Nat) (va perm : U32) :
    KernCode Int := do
  match ← vmStep (pgdirWalk pgdir va true) with
  | none => pure (-eNoMem)
  | some pte => do
      vmStep (pageIncref pp)
      let w ← vmStep (readPte pte)
      Code.when (HasFlag w pteP) (pageRemoveCode tc pgdir va)
      vmStep (writePte pte (page2pa pp ||| perm ||| pteP))
      pure 0

/-- One turn of the inner loop of `env_free`. -/
def envFreeEntryCode (tc : ThisCpu) (pgdir pdeno pt pteno : Nat) : KernCode Unit := do
  let pte ← vmStep (readPte ⟨pt, pteno⟩)
  Code.when (HasFlag pte pteP) (pageRemoveCode tc pgdir (pgaddr pdeno pteno 0))

/-- One turn of the outer loop of `env_free`. -/
def envFreeTableCode (tc : ThisCpu) (pgdir pdeno : Nat) : KernCode Unit := do
  let pde ← vmStep (readPte ⟨pgdir, pdeno⟩)
  Code.when (HasFlag pde pteP) (do
    let pt ← vmStep (kaddr (pteAddr pde))
    Code.forRange 0 nptentries (envFreeEntryCode tc pgdir pdeno pt)
    -- free the page table itself
    vmStep (writePte ⟨pgdir, pdeno⟩ 0#32)
    let pp ← vmStep (pa2page (pteAddr pde))
    vmStep (pageDecref pp))

/-- `env_free`. -/
def envFreeCode (c e : Nat) : KernCode Unit := do
  let k ← .lift Prog.get
  match (k.envs e).envPgdir with
  | none => .lift Prog.stop
  | some pgdir => do
      Code.when (k.curenv c = some e) (.lcr3 k.vm.kernPgdir (.ret ()))
      Code.forRange 0 userPdes (envFreeTableCode (k.thisCpu c) pgdir)
      -- free the page directory
      .lift (Prog.modify (fun k => k.setPgdir e none))
      let pp ← vmStep (pa2page (page2pa pgdir))
      vmStep (pageDecref pp)
      -- return the environment to the free list
      .lift (Prog.modify (fun k =>
        { k.setEnv e
            { k.envs e with envStatus := .free, envLink := k.envFreeList } with
          envFreeList := some e }))

/-- `env_run`. -/
def envRunCode (c e : Nat) : KernCode Unit := do
  .lift (Prog.modify (fun k => k.preempt c))
  .lift (Prog.modify (fun k => k.setCurenv c (some e)))
  .lift (Prog.modify (fun k => k.setStatus e .running))
  .lift (Prog.modify (fun k =>
    k.modifyEnv e (fun v => { v with envRuns := v.envRuns + 1#32 })))
  let k ← .lift Prog.get
  match (k.envs e).envPgdir with
  | none => .lift Prog.stop
  | some pgdir => do
      .lcr3 pgdir (.ret ())
      -- without the lock the processor counts as one in user mode
      .lift (do
        unlockKernel c
        envPopTf c e)

/-! ## As a whole -/

section Collapse

variable {c e : Nat} {pgdir : Nat} {va : U32}

theorem collapse_vmStep {α : Type} (p : Prog PhysMem α) :
    (vmStep p).collapse mmu c = onVm p := Code.collapse_lift _

theorem collapse_lcr3 (d : Nat) :
    (Code.lcr3 d (.ret ()) : KernCode Unit).collapse mmu c = onVm (lcr3 c d) := rfl

theorem onVm_bind {α β : Type} (p : Prog PhysMem α) (f : α → Prog PhysMem β) :
    onVm (p >>= f) = onVm p >>= fun a => onVm (f a) := by
  refine congrArg Prog.mk (funext (fun k => ?_))
  show (onVm (p >>= f)).run k = (onVm p >>= fun a => onVm (f a)).run k
  rw [Prog.run_bind]
  unfold onVm
  rw [Prog.run_zoom, Prog.run_zoom, Prog.run_bind]
  cases p.run k.vm <;> rfl

theorem onVm_when {P : Prop} [Decidable P] (p : Prog PhysMem Unit) :
    onVm (Prog.when P p) = Prog.when P (onVm p) := by
  unfold Prog.when
  split <;> rfl

theorem onVm_forRange (body : Nat → Prog PhysMem Unit) (i n : Nat) :
    onVm (Prog.forRange i n body) = Prog.forRange i n (fun j => onVm (body j)) := by
  induction n generalizing i with
  | zero => rfl
  | succ n ih =>
      unfold Prog.forRange
      rw [onVm_bind]
      exact Prog.bind_congr (fun _ => ih (i + 1))

theorem collapse_tlbInvalidateCode (tc : ThisCpu) :
    (tlbInvalidateCode tc pgdir va).collapse mmu tc.cpu =
      onVm (tlbInvalidate tc pgdir va) := by
  unfold tlbInvalidateCode tlbInvalidate
  rw [Code.collapse_when, onVm_when]
  rfl

theorem collapse_pageRemoveCode (tc : ThisCpu) :
    (pageRemoveCode tc pgdir va).collapse mmu tc.cpu =
      onVm (pageRemove tc pgdir va) := by
  unfold pageRemoveCode pageRemove
  rw [Code.collapse_bind, onVm_bind, collapse_vmStep]
  refine Prog.bind_congr (fun r => ?_)
  cases r with
  | none => rfl
  | some r =>
      obtain ⟨pp, pte⟩ := r
      simp only [Code.collapse_bind, onVm_bind, collapse_vmStep,
        collapse_tlbInvalidateCode]

theorem collapse_pageInsertCode (tc : ThisCpu) (pp : Nat) (perm : U32) :
    (pageInsertCode tc pgdir pp va perm).collapse mmu tc.cpu =
      onVm (pageInsert tc pgdir pp va perm) := by
  unfold pageInsertCode pageInsert
  rw [Code.collapse_bind, onVm_bind, collapse_vmStep]
  refine Prog.bind_congr (fun r => ?_)
  cases r with
  | none => rfl
  | some pte =>
      simp only [Code.collapse_bind, onVm_bind, collapse_vmStep, Code.collapse_when,
        onVm_when, collapse_pageRemoveCode]
      rfl

theorem collapse_envFreeEntryCode (tc : ThisCpu) (pdeno pt pteno : Nat) :
    (envFreeEntryCode tc pgdir pdeno pt pteno).collapse mmu tc.cpu = onVm (do
      let pte ← readPte ⟨pt, pteno⟩
      Prog.when (HasFlag pte pteP) (pageRemove tc pgdir (pgaddr pdeno pteno 0))) := by
  unfold envFreeEntryCode
  simp only [Code.collapse_bind, onVm_bind, collapse_vmStep, Code.collapse_when,
    onVm_when, collapse_pageRemoveCode]

theorem collapse_envFreeTableCode (tc : ThisCpu) (pdeno : Nat) :
    (envFreeTableCode tc pgdir pdeno).collapse mmu tc.cpu =
      onVm (envFreeTable tc pgdir pdeno) := by
  unfold envFreeTableCode envFreeTable envFreeEntries
  simp only [Code.collapse_bind, onVm_bind, collapse_vmStep, Code.collapse_when,
    onVm_when, Code.collapse_forRange, onVm_forRange, collapse_envFreeEntryCode]

theorem collapse_envFreeCode :
    (envFreeCode c e).collapse mmu c = envFree c e := by
  unfold envFreeCode envFree
  rw [Code.collapse_bind, Code.collapse_lift]
  refine Prog.bind_congr (fun k => ?_)
  cases (k.envs e).envPgdir with
  | none => exact Code.collapse_lift _
  | some pgdir =>
      have htable : ∀ i, (envFreeTableCode (k.thisCpu c) pgdir i).collapse mmu c =
          onVm (envFreeTable (k.thisCpu c) pgdir i) := fun i =>
        collapse_envFreeTableCode (k.thisCpu c) i
      simp only [Code.collapse_bind, Code.collapse_when, Code.collapse_forRange,
        onVm_forRange, collapse_vmStep, Code.collapse_lift, collapse_lcr3, htable]

theorem collapse_envRunCode :
    (envRunCode c e).collapse mmu c = envRun c e := by
  unfold envRunCode envRun
  simp only [Code.collapse_bind, Code.collapse_lift]
  refine Prog.bind_congr (fun _ => Prog.bind_congr (fun _ => Prog.bind_congr
    (fun _ => Prog.bind_congr (fun _ => Prog.bind_congr (fun k => ?_)))))
  cases (k.envs e).envPgdir with
  | none => exact Code.collapse_lift _
  | some pgdir =>
      simp only [Code.collapse_bind, Code.collapse_lift, collapse_lcr3]

end Collapse

end Jos

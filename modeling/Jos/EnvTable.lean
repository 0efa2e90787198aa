import Jos.EnvSpace
import Mathlib.Data.Finset.Option
import Mathlib.Data.Finset.Union

/-!
# The environment table

`env_free_list` links exactly the free slots; a slot is free exactly if it has
no page directory; and the id of a live slot names the slot.  `Slots` collects
these, `EnvTable` adds that no two slots share a directory, and `Books` that
the pages are accounted for with the directories of the table in use.

`envAlloc_returns` and `envFree_returns` give the state that the two functions
leave, and `Books.alloc` and `Books.release` say that the books are kept in it.
-/

namespace Jos

open Programs LinkedList RefPool

/-- The page directories of the first `n` slots. -/
def dirsBelow (k : Kernel) (n : Nat) : Finset Nat :=
  (Finset.range n).biUnion (fun e => (k.envs e).envPgdir.toFinset)

/-- The page directories of all environments. -/
@[irreducible] def envDirs (k : Kernel) : Finset Nat := dirsBelow k nenv

/-- The slots of the environment table and their free list. -/
structure Slots (k : Kernel) : Prop where
  freeChain : ∃ freeEnvs, Chain (fun e => (k.envs e).envLink) k.envFreeList
    freeEnvs ∧ ∀ e, e ∈ freeEnvs ↔ e < nenv ∧ (k.envs e).envStatus = .free
  pgdir_none : ∀ e, e < nenv →
    ((k.envs e).envPgdir = none ↔ (k.envs e).envStatus = .free)
  id_slot : ∀ e, e < nenv → (k.envs e).envStatus ≠ .free →
    envx (k.envs e).envId = e

/-- What is always true of the environment table. -/
structure EnvTable (k : Kernel) : Prop extends Slots k where
  pgdir_inj : ∀ e e' d, e < nenv → e' < nenv → (k.envs e).envPgdir = some d →
    (k.envs e').envPgdir = some d → e = e'

/-- The books of the pages and the table of environments. -/
structure Books (managed : Set Nat) (held : Finset Nat) (k : Kernel) : Prop where
  accounted : ∃ free, Accounted managed free held (envDirs k) k.vm
  kernDir : KernDir managed k.vm
  table : EnvTable k

section Dirs

variable {k k' : Kernel} {e d p : Nat}

theorem mem_dirsBelow {n : Nat} :
    d ∈ dirsBelow k n ↔ ∃ e, e < n ∧ (k.envs e).envPgdir = some d := by
  simp [dirsBelow]

theorem mem_envDirs :
    d ∈ envDirs k ↔ ∃ e, e < nenv ∧ (k.envs e).envPgdir = some d := by
  unfold envDirs
  exact mem_dirsBelow

theorem envDirs_congr
    (h : ∀ e, e < nenv → (k'.envs e).envPgdir = (k.envs e).envPgdir) :
    envDirs k' = envDirs k := by
  ext d
  rw [mem_envDirs, mem_envDirs]
  constructor
  · rintro ⟨e, he, hd⟩
    exact ⟨e, he, h e he ▸ hd⟩
  · rintro ⟨e, he, hd⟩
    exact ⟨e, he, (h e he).symm ▸ hd⟩

@[simp] theorem envDirs_setVm (vm : PhysMem) :
    envDirs (k.setVm vm) = envDirs k := envDirs_congr (fun _ _ => rfl)

theorem envDirs_add
    (he : e < nenv) (hnone : (k.envs e).envPgdir = none)
    (hset : (k'.envs e).envPgdir = some p)
    (hrest : ∀ e', e' ≠ e → (k'.envs e').envPgdir = (k.envs e').envPgdir) :
    envDirs k' = insert p (envDirs k) := by
  ext d
  rw [Finset.mem_insert, mem_envDirs, mem_envDirs]
  constructor
  · rintro ⟨e', he', hd⟩
    by_cases hee : e' = e
    · rw [hee, hset] at hd
      exact Or.inl (Option.some.inj hd).symm
    · rw [hrest e' hee] at hd
      exact Or.inr ⟨e', he', hd⟩
  · rintro (rfl | ⟨e', he', hd⟩)
    · exact ⟨e, he, hset⟩
    · have hee : e' ≠ e := by
        rintro rfl
        rw [hnone] at hd
        exact absurd hd (by simp)
      exact ⟨e', he', (hrest e' hee).trans hd⟩

theorem envDirs_remove
    (ht : EnvTable k) (he : e < nenv) (hd : (k.envs e).envPgdir = some d)
    (hset : (k'.envs e).envPgdir = none)
    (hrest : ∀ e', e' ≠ e → (k'.envs e').envPgdir = (k.envs e').envPgdir) :
    envDirs k' = (envDirs k).erase d := by
  ext d'
  rw [Finset.mem_erase, mem_envDirs, mem_envDirs]
  constructor
  · rintro ⟨e', he', hd'⟩
    have hee : e' ≠ e := by
      rintro rfl
      rw [hset] at hd'
      exact absurd hd' (by simp)
    rw [hrest e' hee] at hd'
    refine ⟨?_, e', he', hd'⟩
    rintro rfl
    exact hee (ht.pgdir_inj e' e d' he' he hd' hd)
  · rintro ⟨hne, e', he', hd'⟩
    have hee : e' ≠ e := by
      rintro rfl
      exact hne (Option.some.inj (hd'.symm.trans hd))
    exact ⟨e', he', (hrest e' hee).trans hd'⟩

end Dirs

/-- The free list of environments starts with a free slot. -/
theorem Slots.head_free
    {k : Kernel} {e : Nat} (ht : Slots k) (hlist : k.envFreeList = some e) :
    e < nenv ∧ (k.envs e).envStatus = .free ∧ (k.envs e).envPgdir = none ∧
      ∃ rest, Chain (fun e => (k.envs e).envLink) (some e) (e :: rest) ∧
        ∀ e', e' ∈ e :: rest ↔ e' < nenv ∧ (k.envs e').envStatus = .free := by
  obtain ⟨freeEnvs, hchain, hmem⟩ := ht.freeChain
  rw [hlist] at hchain
  cases freeEnvs with
  | nil => exact absurd hchain (by simp)
  | cons e' rest =>
      obtain rfl := Option.some.inj hchain.1
      obtain ⟨he, hfree⟩ := (hmem e).mp List.mem_cons_self
      exact ⟨he, hfree, (ht.pgdir_none e he).mpr hfree, rest, hchain, hmem⟩

/-! ## Changes that keep every slot in its use -/

/-- Two environment tables with the same slots in use for the same. -/
structure SameTable (k k' : Kernel) : Prop where
  freeList : k'.envFreeList = k.envFreeList
  link : ∀ e, (k'.envs e).envLink = (k.envs e).envLink
  pgdir : ∀ e, (k'.envs e).envPgdir = (k.envs e).envPgdir
  id : ∀ e, (k'.envs e).envId = (k.envs e).envId
  free : ∀ e, (k'.envs e).envStatus = .free ↔ (k.envs e).envStatus = .free

theorem SameTable.refl (k : Kernel) : SameTable k k :=
  ⟨rfl, fun _ => rfl, fun _ => rfl, fun _ => rfl, fun _ => Iff.rfl⟩

theorem SameTable.trans {k k' k'' : Kernel} (h : SameTable k k')
    (h' : SameTable k' k'') : SameTable k k'' where
  freeList := h'.freeList.trans h.freeList
  link e := (h'.link e).trans (h.link e)
  pgdir e := (h'.pgdir e).trans (h.pgdir e)
  id e := (h'.id e).trans (h.id e)
  free e := (h'.free e).trans (h.free e)

section Congr

variable {k k' : Kernel}

theorem SameTable.envDirs_eq (h : SameTable k k') : envDirs k' = envDirs k :=
  envDirs_congr (fun e _ => h.pgdir e)

theorem Slots.congr (ht : Slots k) (h : SameTable k k') : Slots k' where
  freeChain := by
    obtain ⟨freeEnvs, hchain, hmem⟩ := ht.freeChain
    refine ⟨freeEnvs, ?_, fun e => ?_⟩
    · rw [h.freeList]
      exact hchain.congr (fun e _ => h.link e)
    · rw [hmem e, h.free e]
  pgdir_none e he := by
    rw [h.pgdir e, h.free e]
    exact ht.pgdir_none e he
  id_slot e he hlive := by
    rw [h.id]
    exact ht.id_slot e he (fun hh => hlive ((h.free e).mpr hh))

theorem EnvTable.congr (ht : EnvTable k) (h : SameTable k k') :
    EnvTable k' where
  toSlots := ht.toSlots.congr h
  pgdir_inj e e' d he he' hd hd' := by
    rw [h.pgdir] at hd hd'
    exact ht.pgdir_inj e e' d he he' hd hd'

end Congr

/-! ## Ids -/

/-- The id that `env_alloc` gives to a slot names the slot. -/
theorem envx_nextEnvId (envId : U32) {e : Nat} (he : e < nenv) :
    envx (nextEnvId envId e) = e := by
  have hlow : ∀ g : U32, g &&& 0x3FF#32 = 0#32 →
      ((g ||| BitVec.ofNat 32 e) &&& 0x3FF#32).toNat = e := by
    intro g hg
    have hor : (g ||| BitVec.ofNat 32 e) &&& 0x3FF#32 =
        (g &&& 0x3FF#32) ||| (BitVec.ofNat 32 e &&& 0x3FF#32) := by
      ext i hi
      simp only [BitVec.getElem_and, BitVec.getElem_or]
      cases g[i] <;> simp
    have hlt : e < 2 ^ 10 := he
    rw [hor, hg, BitVec.zero_or, BitVec.toNat_and, BitVec.toNat_ofNat,
      show (0x3FF#32).toNat = 2 ^ 10 - 1 by decide,
      Nat.and_two_pow_sub_one_eq_mod]
    omega
  unfold envx nextEnvId
  dsimp only
  split
  · exact hlow envGen (by decide)
  · refine hlow _ ?_
    rw [BitVec.and_assoc, show ~~~(BitVec.ofNat 32 (nenv - 1)) &&& 0x3FF#32 =
      0#32 by decide, BitVec.and_zero]

/-! ## `env_alloc` -/

/-- The state `env_alloc` leaves, for the slot, its directory and the state of
physical memory after `env_setup_vm`. -/
def Kernel.allocated (k : Kernel) (vm : PhysMem) (e p : Nat) (parentId : U32) :
    Kernel :=
  { (k.setVm vm).setEnv e
      (freshEnv { k.envs e with envPgdir := some p } e parentId) with
    envFreeList := (k.envs e).envLink }

section Alloc

variable {managed : Set Nat} {free : List Nat} {held : Finset Nat} {k : Kernel}
  {e p : Nat} {parentId : U32} {vm : PhysMem}

@[simp] theorem allocated_vm : (k.allocated vm e p parentId).vm = vm := rfl

theorem allocated_envs_self :
    (k.allocated vm e p parentId).envs e =
      freshEnv { k.envs e with envPgdir := some p } e parentId := by
  simp [Kernel.allocated, Kernel.setEnv]

theorem allocated_envs_of_ne {e' : Nat} (h : e' ≠ e) :
    (k.allocated vm e p parentId).envs e' = k.envs e' := by
  simp [Kernel.allocated, Kernel.setEnv, Kernel.setVm, h]

/-- `env_alloc` fails without effect, or takes the first free slot. -/
theorem envAlloc_returns
    (h : Accounted managed free held (envDirs k) k.vm)
    (hk : KernDir managed k.vm) (parentId : U32) :
    Returns (envAlloc parentId)
      (fun r k' =>
        (k.envFreeList = none ∧ r = .error (-eNoFreeEnv) ∧ k' = k) ∨
        (k.envFreeList ≠ none ∧ free = [] ∧ r = .error (-eNoMem) ∧ k' = k) ∨
        (∃ e p free' vm, k.envFreeList = some e ∧ free = p :: free' ∧
          r = .ok e ∧ k' = k.allocated vm e p parentId ∧
          DirAdded managed free' held (envDirs k) p k.vm vm)) k := by
  unfold envAlloc
  refine returns_bind (R := fun s k' => s = k ∧ k' = k) ⟨rfl, rfl⟩ ?_
  rintro s k' ⟨rfl, rfl⟩
  cases hlist : k'.envFreeList with
  | none => exact Or.inl ⟨rfl, rfl, rfl⟩
  | some e =>
      refine returns_bind (envSetupVm_returns e h hk) ?_
      rintro r k'' (⟨hnil, rfl, rfl⟩ | ⟨p, free', vm, hcons, rfl, rfl, hadd⟩)
      · exact Or.inr (Or.inl ⟨by simp, hnil, rfl, rfl⟩)
      · refine Or.inr (Or.inr ⟨e, p, free', vm, rfl, hcons, rfl, ?_, hadd⟩)
        simp [Kernel.allocated, Kernel.setPgdir, Kernel.modifyEnv, Kernel.setEnv, Kernel.setVm,
          freshEnv]

theorem envDirs_allocated (ht : EnvTable k) (hlist : k.envFreeList = some e) :
    envDirs (k.allocated vm e p parentId) = insert p (envDirs k) := by
  obtain ⟨he, -, hnone, -⟩ := ht.head_free hlist
  refine envDirs_add he hnone ?_
    (fun e' hne => by rw [allocated_envs_of_ne hne])
  rw [allocated_envs_self, freshEnv]

/-- `env_alloc` keeps the slots. -/
theorem Slots.alloc (ht : Slots k) (hlist : k.envFreeList = some e) :
    Slots (k.allocated vm e p parentId) := by
  obtain ⟨he, hfree, hnone, rest, hchain, hmem⟩ := ht.head_free hlist
  obtain ⟨hnotin, -⟩ := List.nodup_cons.mp hchain.nodup
  have hself : (k.allocated vm e p parentId).envs e = _ := allocated_envs_self
  have hrest : ∀ e', e' ≠ e → (k.allocated vm e p parentId).envs e' = k.envs e' :=
    fun e' => allocated_envs_of_ne
  refine ⟨⟨rest, ?_, ?_⟩, ?_, ?_⟩
  · refine hchain.2.congr (fun e' he' => ?_)
    rw [hrest e' (fun hh => hnotin (hh ▸ he'))]
  · intro e'
    by_cases hee : e' = e
    · subst hee
      rw [hself]
      simp [hnotin, freshEnv]
    · rw [hrest e' hee, ← hmem e', List.mem_cons]
      simp [hee]
  · intro e' he'
    by_cases hee : e' = e
    · subst hee
      rw [hself]
      simp [freshEnv]
    · rw [hrest e' hee]
      exact ht.pgdir_none e' he'
  · intro e' he' hlive
    by_cases hee : e' = e
    · subst hee
      rw [hself]
      exact envx_nextEnvId _ he'
    · rw [hrest e' hee] at hlive ⊢
      exact ht.id_slot e' he' hlive

/-- `env_alloc` keeps the table and the books. -/
theorem Books.alloc
    (ht : EnvTable k) (hk : KernDir managed k.vm)
    (hlist : k.envFreeList = some e)
    (hadd : DirAdded managed free held (envDirs k) p k.vm vm) :
    Books managed held (k.allocated vm e p parentId) := by
  have hrest : ∀ e', e' ≠ e → (k.allocated vm e p parentId).envs e' = k.envs e' :=
    fun e' => allocated_envs_of_ne
  have hset : ((k.allocated vm e p parentId).envs e).envPgdir = some p := by
    rw [allocated_envs_self, freshEnv]
  have hdirs : envDirs (k.allocated vm e p parentId) = insert p (envDirs k) :=
    envDirs_allocated ht hlist
  have hnew : ∀ e', e' < nenv → (k.envs e').envPgdir ≠ some p :=
    fun e' he' hp => by
      have hdir : p ∈ envDirs k := mem_envDirs.mpr ⟨e', he', hp⟩
      have hpos : 0 < refCount k.vm.mem (envDirs k) p := refCount_pos_of_dir hdir
      have hfresh := hadd.fresh
      omega
  refine ⟨⟨free, ?_⟩, hk.of_frame hadd.frame, ht.toSlots.alloc hlist, ?_⟩
  · rw [hdirs]
    exact hadd.accounted
  · intro e₁ e₂ d he₁ he₂ h₁ h₂
    by_cases hee₁ : e₁ = e
    · by_cases hee₂ : e₂ = e
      · rw [hee₁, hee₂]
      · rw [hee₁, hset] at h₁
        rw [hrest e₂ hee₂] at h₂
        exact absurd (h₂.trans h₁.symm) (hnew e₂ he₂)
    · rw [hrest e₁ hee₁] at h₁
      by_cases hee₂ : e₂ = e
      · rw [hee₂, hset] at h₂
        exact absurd (h₁.trans h₂.symm) (hnew e₁ he₁)
      · rw [hrest e₂ hee₂] at h₂
        exact ht.pgdir_inj e₁ e₂ d he₁ he₂ h₁ h₂

end Alloc

/-! ## `env_free` -/

/-- The state `env_free` leaves, for the state of physical memory after the
address space is taken down. -/
def Kernel.freed (k : Kernel) (vm : PhysMem) (e : Nat) : Kernel :=
  { (k.setVm vm).setEnv e
      { k.envs e with
        envPgdir := none
        envStatus := .free
        envLink := k.envFreeList } with
    envFreeList := some e }

/-- `env_free` leaves the address space it is about to take down. -/
def PhysMem.leaveDir (m : PhysMem) (c : Nat) (current : Prop)
    [Decidable current] : PhysMem :=
  if current then m.loadCr3 c m.kernPgdir else m

/-- What `env_free` leaves behind. -/
structure Freed (managed : Set Nat) (held : Finset Nat) (c e d : Nat)
    (k k' : Kernel) : Prop where
  state : ∃ vm, k' = k.freed vm e
  space : DirFreed managed held (envDirs k) d
    (k.vm.leaveDir c (k.curenv c = some e)) k'.vm

section Free

variable {managed : Set Nat} {free : List Nat} {held dirs : Finset Nat}
  {k k' : Kernel} {m vm : PhysMem} {c e d : Nat}

@[simp] theorem leaveDir_mem (m : PhysMem) (c : Nat) (current : Prop)
    [Decidable current] : (m.leaveDir c current).mem = m.mem := by
  unfold PhysMem.leaveDir
  split <;> rfl

theorem Accounted.leaveDir
    (h : Accounted managed free held dirs m) (c : Nat) (current : Prop)
    [Decidable current] :
    Accounted managed free held dirs (m.leaveDir c current) := by
  unfold PhysMem.leaveDir
  split
  · exact ⟨h.ledger.congr rfl rfl rfl, h.spaces⟩
  · exact h

theorem freed_envs_self :
    (k.freed vm e).envs e =
      { k.envs e with
        envPgdir := none
        envStatus := .free
        envLink := k.envFreeList } := by
  simp [Kernel.freed, Kernel.setEnv]

theorem freed_envs_of_ne {e' : Nat} (h : e' ≠ e) :
    (k.freed vm e).envs e' = k.envs e' := by
  simp [Kernel.freed, Kernel.setEnv, Kernel.setVm, h]

theorem envFree_returns
    (h : Accounted managed free held (envDirs k) k.vm)
    (hmax : ∀ p, refCount k.vm.mem (envDirs k) p ≤ 65535)
    (he : e < nenv) (hd : (k.envs e).envPgdir = some d) :
    Returns (envFree c e)
      (fun _ k' => Freed managed held c e d k k') k := by
  have hdir : d ∈ envDirs k := mem_envDirs.mpr ⟨e, he, hd⟩
  let m := k.vm.leaveDir c (k.curenv c = some e)
  have hacc : Accounted managed free held (envDirs k) m := h.leaveDir c _
  have hmax' : ∀ p, refCount m.mem (envDirs k) p ≤ 65535 := by
    intro p
    rw [leaveDir_mem]
    exact hmax p
  have hleave : (Prog.when (k.curenv c = some e)
      (onVm (lcr3 c k.vm.kernPgdir))).run k = .ret () (k.setVm m) := by
    by_cases hcur : k.curenv c = some e
    · rw [Prog.run_when_true hcur]
      simp only [m, PhysMem.leaveDir, if_pos hcur]
      rfl
    · rw [Prog.run_when_false hcur]
      simp only [m, PhysMem.leaveDir, if_neg hcur]
      rfl
  unfold envFree
  refine returns_bind (R := fun s k' => s = k ∧ k = k') ⟨rfl, rfl⟩ ?_
  rintro s k' ⟨rfl, rfl⟩
  simp only [hd]
  refine returns_bind (returns_iff.mpr ⟨_, _, hleave, rfl⟩ :
    Returns _ (fun _ s => s = _) _) ?_
  rintro _ _ rfl
  refine returns_bind
    (onVm_returns (envFreeTables_returns hacc hdir hmax')) ?_
  rintro _ _ ⟨m', rfl, hcleared⟩
  obtain ⟨free', hacc'⟩ := hcleared.accounted
  have hdm := hacc'.spaces.dir_managed d hdir
  have hlt := hacc'.ledger.managed_lt d hdm
  have hnum := pgnum_page2pa (hacc'.ledger.lt_two_pow hdm)
  have hpp : (pa2page (page2pa d)).run m' = .ret d m' := by
    rw [pa2page_eq, hnum]
    rw [hnum]
    exact hlt
  have hlink : (m'.pages d).ppLink = none := by
    have hpos : 0 < refCount m'.mem (envDirs s) d := refCount_pos_of_dir hdir
    exact hacc'.ledger.link_none d hdm
      (hacc'.ledger.pool.not_free_of_referenced (by omega))
  rw [returns_iff]
  refine ⟨(), s.freed (m'.dropRef d) e, ?_, ⟨_, rfl⟩, hcleared.dropDir hdir⟩
  rw [Prog.run_bind_ret (Prog.run_modify _ _)]
  rw [Prog.run_bind_ret (onVm_ret hpp)]
  rw [Prog.run_bind_ret (onVm_ret (pageDecref_eq hlink))]
  rw [Prog.run_modify]
  simp [Kernel.freed, Kernel.setPgdir, Kernel.modifyEnv, Kernel.setEnv, Kernel.setVm]

theorem envDirs_freed (ht : EnvTable k) (he : e < nenv)
    (hd : (k.envs e).envPgdir = some d) :
    envDirs (k.freed vm e) = (envDirs k).erase d := by
  refine envDirs_remove ht he hd ?_ (fun e' hne => by rw [freed_envs_of_ne hne])
  rw [freed_envs_self]

/-- `env_free` keeps the slots. -/
theorem Slots.release (ht : Slots k) (he : e < nenv)
    (hd : (k.envs e).envPgdir = some d) : Slots (k.freed vm e) := by
  obtain ⟨freeEnvs, hchain, hmem⟩ := ht.freeChain
  have hlive : (k.envs e).envStatus ≠ .free := by
    intro hfree
    rw [(ht.pgdir_none e he).mpr hfree] at hd
    exact absurd hd (by simp)
  have hnotin : e ∉ freeEnvs := fun hh => hlive ((hmem e).mp hh).2
  have hself : (k.freed vm e).envs e = _ := freed_envs_self
  have hrest : ∀ e', e' ≠ e → (k.freed vm e).envs e' = k.envs e' :=
    fun e' => freed_envs_of_ne
  refine ⟨⟨e :: freeEnvs, ?_, ?_⟩, ?_, ?_⟩
  · refine ⟨rfl, ?_⟩
    simp only [hself]
    refine hchain.congr (fun e' he' => ?_)
    rw [hrest e' (fun hh => hnotin (hh ▸ he'))]
  · intro e'
    by_cases hee : e' = e
    · subst hee
      rw [hself]
      simp [he]
    · rw [hrest e' hee, ← hmem e', List.mem_cons]
      simp [hee]
  · intro e' he'
    by_cases hee : e' = e
    · subst hee
      rw [hself]
      simp
    · rw [hrest e' hee]
      exact ht.pgdir_none e' he'
  · intro e' he' hlive'
    by_cases hee : e' = e
    · subst hee
      rw [hself] at hlive'
      exact absurd rfl hlive'
    · rw [hrest e' hee] at hlive' ⊢
      exact ht.id_slot e' he' hlive'

/-- `env_free` keeps the table and the books. -/
theorem Books.release
    (h : Books managed held k) (he : e < nenv)
    (hd : (k.envs e).envPgdir = some d)
    (hf : Freed managed held c e d k k') :
    Books managed held k' := by
  obtain ⟨vm, rfl⟩ := hf.state
  have ht := h.table
  have hrest : ∀ e', e' ≠ e → (k.freed vm e).envs e' = k.envs e' :=
    fun e' => freed_envs_of_ne
  have hset : ((k.freed vm e).envs e).envPgdir = none := by
    rw [freed_envs_self]
  have hdirs : envDirs (k.freed vm e) = (envDirs k).erase d :=
    envDirs_freed ht he hd
  have hkern : KernDir managed (k.vm.leaveDir c (k.curenv c = some e)) := by
    unfold PhysMem.leaveDir
    split
    · exact ⟨h.kernDir.empty, h.kernDir.not_managed, h.kernDir.table,
        h.kernDir.entry⟩
    · exact h.kernDir
  refine ⟨?_, hkern.of_frame hf.space.frame, ht.toSlots.release he hd, ?_⟩
  · rw [hdirs]
    exact hf.space.accounted
  · intro e₁ e₂ d' he₁ he₂ h₁ h₂
    have hne : ∀ e', ((k.freed vm e).envs e').envPgdir = some d' → e' ≠ e := by
      rintro e' h' rfl
      rw [hset] at h'
      exact absurd h' (by simp)
    rw [hrest e₁ (hne e₁ h₁)] at h₁
    rw [hrest e₂ (hne e₂ h₂)] at h₂
    exact ht.pgdir_inj e₁ e₂ d' he₁ he₂ h₁ h₂

end Free

end Jos

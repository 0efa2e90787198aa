import Jos.MemoryOps
import Jos.Order

/-!
# The first states

Before any processor schedules, the environments that `env_create` makes are
runnable and nobody runs them (`Booting`), so the table and the processors are
in order; and the images that `load_icode` loads keep the invariant of memory,
because their segments lie below `UTOP`.
-/

namespace Jos

open Programs RefPool

/-- Processors that have not started to schedule, and environments that wait
for them. -/
structure Booting (k : Kernel) : Prop where
  slots : Slots k
  cpus : ∀ c, k.cpus c = ⟨.started, none, .boot⟩
  lock : k.kernelLock = none
  waiting : ∀ e, (k.envs e).envStatus = .free ∨ (k.envs e).envStatus = .runnable

section Booting

variable {k k' : Kernel} {c e : Nat}

theorem Booting.congr (h : Booting k) (hc : SameCpus k k')
    (ht : SameTable k k')
    (hst : ∀ e, (k'.envs e).envStatus = (k.envs e).envStatus) : Booting k' := by
  refine ⟨h.slots.congr ht, fun c => ?_, hc.kernelLock.trans h.lock, fun e => ?_⟩
  · rw [hc.cpus]
    exact h.cpus c
  · rw [hst e]
    exact h.waiting e

theorem Booting.sameProcs (h : Booting k) (hp : SameProcs k k') :
    Booting k' := by
  refine h.congr hp.sameCpus ⟨hp.envFreeList, ?_, ?_, ?_, ?_⟩ ?_
  all_goals
    intro e
    rw [hp.envs]

/-- An edit of an environment that concerns neither its slot nor its status. -/
theorem Booting.edit {f : Env → Env} (h : Booting k)
    (hlink : (f (k.envs e)).envLink = (k.envs e).envLink)
    (hpgdir : (f (k.envs e)).envPgdir = (k.envs e).envPgdir)
    (hid : (f (k.envs e)).envId = (k.envs e).envId)
    (hst : (f (k.envs e)).envStatus = (k.envs e).envStatus) :
    Booting (k.modifyEnv e f) := by
  refine h.congr ⟨rfl, rfl, rfl⟩
    (sameTable_modifyEnv hlink hpgdir hid (by rw [hst])) (fun e' => ?_)
  by_cases he : e' = e
  · subst he
    rw [Kernel.modifyEnv_envs_self, hst]
  · rw [Kernel.modifyEnv_envs_of_ne he]

theorem Booting.alloc {p : Nat} {vm : PhysMem} {parentId : U32}
    (h : Booting k) (hlist : k.envFreeList = some e) :
    Booting (k.allocated vm e p parentId) := by
  refine ⟨h.slots.alloc hlist, h.cpus, h.lock, fun e' => ?_⟩
  by_cases he : e' = e
  · subst he
    rw [allocated_envs_self]
    exact Or.inr rfl
  · rw [allocated_envs_of_ne he]
    exact h.waiting e'

theorem Booting.orderly (h : Booting k) : Orderly k ∧ Outside k := by
  have hnone : ∀ c, k.curenv c = none := fun c => by
    unfold Kernel.curenv
    rw [h.cpus c]
  have hno : ∀ {c : Nat} {e : Nat} {P : Prop}, k.curenv c = some e → P := by
    intro c e P he
    rw [hnone c] at he
    exact absurd he (by simp)
  have hplace : ∀ c, (k.cpus c).place = .boot := fun c => by rw [h.cpus c]
  refine ⟨⟨h.slots, fun c e he => hno he, ?_, fun c e _ he => hno he,
    fun c _ => hnone c, fun c c' e he _ => hno he, ?_, ?_, ?_⟩, h.lock, ?_⟩
  · intro c hp
    rw [hplace c] at hp
    exact absurd hp (by decide)
  · intro e _ hs
    rcases h.waiting e with hw | hw <;> rw [hw] at hs <;>
      exact absurd hs (by decide)
  · intro e _ hs
    rcases h.waiting e with hw | hw <;> rw [hw] at hs <;>
      exact absurd hs (by decide)
  · intro c
    rw [h.cpus c]
    decide
  · intro c
    rw [hplace c]
    decide

/-- The program leaves environments and processors alone. -/
abbrev KeepsProcs {α : Type} (m : Prog Kernel α) : Prop :=
  ∀ k, wp m (Partial (fun _ k' => SameProcs k k') (fun _ => False)) k

theorem keepsProcs_onVm {α : Type} {m : Prog PhysMem α} (hm : Stays m) :
    KeepsProcs (onVm m) := fun _ =>
  onVm_wp hm (fun _ _ _ => sameProcs_setVm _)

theorem keepsProcs_forRange {body : Nat → Prog Kernel Unit}
    (hbody : ∀ i, KeepsProcs (body i)) (i n : Nat) :
    KeepsProcs (Prog.forRange i n body) := fun k =>
  wp_forRange (fun _ k' => SameProcs k k') i n (fun j k₁ _ _ h₁ =>
    wp_mono (hbody j k₁) (fun _ _ h => h₁.trans h) (fun _ h => h) (fun _ h => h))
    (fun _ h => h) (.refl k)

theorem keepsProcs_bind {α β : Type} {m : Prog Kernel α} {f : α → Prog Kernel β}
    (hm : KeepsProcs m) (hf : ∀ a, KeepsProcs (f a)) : KeepsProcs (m >>= f) :=
  fun k => partial_bind (hm k) (fun a k₁ h₁ =>
    wp_mono (hf a k₁) (fun _ _ h => h₁.trans h) (fun _ h => h) (fun _ h => h))
    (fun _ h => h)

theorem keepsProcs_pokeByte (c : Nat) (va : U32) (b : U8) :
    KeepsProcs (pokeByte c va b) := by
  intro k
  unfold pokeByte
  rw [wp_get_bind]
  cases k.vm.kernelPage (k.vm.cr3 c) va true with
  | none => exact trivial
  | some p => exact sameProcs_setVm _

theorem keepsProcs_regionAlloc (c e : Nat) (va len : U32) :
    KeepsProcs (regionAlloc c e va len) := by
  unfold regionAlloc
  refine keepsProcs_forRange (fun i => keepsProcs_bind
    (keepsProcs_onVm (pageAlloc_stays false)) (fun pp k => ?_)) _ _
  cases pp with
  | none => exact trivial
  | some pp =>
      simp only
      rw [wp_get_bind]
      cases (k.envs e).envPgdir with
      | none => exact trivial
      | some pgdir =>
          refine keepsProcs_bind (keepsProcs_onVm (pageInsert_stays _ _ _ _ _))
            (fun r k₁ => ?_) k
          exact wp_ite (fun _ => trivial) (fun _ => SameProcs.refl k₁)

theorem keepsProcs_loadSegment (c e : Nat) (binary : Binary) (i : Nat) :
    KeepsProcs (loadSegment c e binary i) := by
  intro k
  refine wp_when (fun _ => ?_) (fun _ => .refl k)
  exact keepsProcs_bind (keepsProcs_regionAlloc c e _ _) (fun _ =>
    keepsProcs_bind (keepsProcs_forRange (fun j => keepsProcs_pokeByte c _ _) _ _)
      (fun _ => keepsProcs_forRange (fun j => keepsProcs_pokeByte c _ _) _ _)) k

theorem SameProcs.modifyEnv (h : SameProcs k k') (f : Env → Env) :
    SameProcs (k.modifyEnv e f) (k'.modifyEnv e f) := by
  refine ⟨?_, h.envFreeList, h.cpus, h.ncpu, h.kernelLock⟩
  simp only [Kernel.modifyEnv, Kernel.setEnv]
  rw [h.envs]

theorem modifyEnv_modifyEnv (f g : Env → Env) :
    (k.modifyEnv e f).modifyEnv e g = k.modifyEnv e (fun v => g (f v)) := by
  simp [Kernel.modifyEnv, Kernel.setEnv]

/-- An environment whose image has been loaded. -/
def Env.startAt (v : Env) (entry : U32) : Env :=
  { v with envTf := { v.envTf with tfEip := entry } }

theorem loadIcode_procs (c e : Nat) (binary : Binary) (k : Kernel) :
    wp (loadIcode c e binary) (Partial (fun _ k' =>
      SameProcs (k.modifyEnv e (fun v => v.startAt binary.eEntry)) k')
      (fun _ => False)) k := by
  refine wp_ite (fun _ => trivial) (fun _ => ?_)
  rw [wp_get_bind]
  cases (k.envs e).envPgdir with
  | none => exact trivial
  | some pgdir =>
      refine partial_bind (keepsProcs_onVm (lcr3_stays _ _) k)
        (fun _ k₁ h₁ => ?_) (fun _ h => h)
      refine partial_bind (keepsProcs_forRange
        (fun i => keepsProcs_loadSegment c e binary i) _ _ k₁)
        (fun _ k₂ h₂ => ?_) (fun _ h => h)
      refine partial_bind (keepsProcs_onVm (lcr3_stays _ _) k₂)
        (fun _ k₃ h₃ => ?_) (fun _ h => h)
      rw [wp_modify_bind]
      refine wp_mono (keepsProcs_regionAlloc c e (ustacktop - pgsize) pgsize _)
        (fun _ _ h => ?_) (fun _ h => h) (fun _ h => h)
      exact ((((h₁.trans h₂).trans h₃).modifyEnv _).trans h)

/-- The fields that `env_create` changes in a new environment. -/
def Env.created (v : Env) (binary : Binary) (type : EnvType) : Env :=
  let v := { v.startAt binary.eEntry with envType := type }
  if type = .fs then
    { v with envTf := { v.envTf with
        tfEflags := v.envTf.tfEflags ||| flIoplMask } }
  else v

/-- `env_create` takes the first free slot and leaves the others alone. -/
theorem envCreate_procs (c : Nat) (binary : Binary) (type : EnvType)
    (k : Kernel) :
    wp (envCreate c binary type) (Partial (fun _ k' => ∃ e p vm,
      k.envFreeList = some e ∧ SameProcs ((k.allocated vm e p 0#32).modifyEnv e
        (fun v => v.created binary type)) k') (fun _ => False)) k := by
  refine partial_bind envAlloc_wp (fun r k₁ h₁ => ?_) (fun _ h => h)
  rcases h₁ with ⟨n, rfl, rfl⟩ | ⟨e, p, vm, rfl, hlist, rfl⟩
  · exact trivial
  refine partial_bind (loadIcode_procs c e binary _) (fun _ k₂ h₂ => ?_)
    (fun _ h => h)
  rw [wp_modify_bind]
  have h₃ := h₂.modifyEnv (e := e) (fun v => { v with envType := type })
  rw [modifyEnv_modifyEnv] at h₃
  refine wp_when (fun hfs => ?_) (fun hfs => ⟨e, p, vm, hlist, ?_⟩)
  · refine ⟨e, p, vm, hlist, ?_⟩
    have h₄ := h₃.modifyEnv (e := e) (fun v => { v with
      envTf := { v.envTf with tfEflags := v.envTf.tfEflags ||| flIoplMask } })
    rw [modifyEnv_modifyEnv] at h₄
    simpa only [Env.created, if_pos hfs] using h₄
  · simpa only [Env.created, if_neg hfs] using h₃

theorem Booting.create {binary : Binary} {type : EnvType} (h : Booting k)
    (hrun : (envCreate c binary type).run k = .ret () k') : Booting k' := by
  obtain ⟨e, p, vm, hlist, hp⟩ := wp_ret (envCreate_procs c binary type k) hrun
  have hnew : Booting ((k.allocated vm e p 0#32).modifyEnv e
      (fun v => v.created binary type)) := by
    refine (h.alloc hlist).edit ?_ ?_ ?_ ?_ <;>
      (unfold Env.created; dsimp only; split <;> rfl)
  exact hnew.sameProcs hp

end Booting

/-- Before the scheduler starts everything is in order. -/
theorem Booted.booting {managed : Set Nat} {k : Kernel}
    (h : Booted managed k) : Booting k := by
  induction h with
  | @init k hinit hcpus _ hlock =>
      refine ⟨hinit.books.table.toSlots, hcpus, hlock, fun e => ?_⟩
      obtain ⟨k₀, -, rfl⟩ := hinit.envs
      exact Or.inl rfl
  | create binary type _ _ hrun ih =>
      exact ih.create hrun

/-! ## Memory -/

/-- The pages that the allocator does not manage keep their words. -/
structure KernKept (managed : Set Nat) (m m' : PhysMem) : Prop where
  npages : m'.npages = m.npages
  kernPgdir : m'.kernPgdir = m.kernPgdir
  outside : ∀ p, p ∉ managed → m'.mem p = m.mem p

theorem KernKept.refl (managed : Set Nat) (m : PhysMem) : KernKept managed m m :=
  ⟨rfl, rfl, fun _ _ => rfl⟩

theorem KernKept.trans {managed : Set Nat} {m m' m'' : PhysMem}
    (h : KernKept managed m m') (h' : KernKept managed m' m'') :
    KernKept managed m m'' :=
  ⟨h'.npages.trans h.npages, h'.kernPgdir.trans h.kernPgdir,
    fun p hp => (h'.outside p hp).trans (h.outside p hp)⟩

theorem VmFrame.kernKept {managed : Set Nat} {dirs : Finset Nat} {m m' : PhysMem}
    (h : VmFrame managed dirs m m') : KernKept managed m m' :=
  ⟨h.npages, h.kernPgdir, h.outside⟩

/-- While an environment is loaded: its directory is `d`, and the processor
has loaded directory `a`. -/
structure Loading (managed : Set Nat) (m₀ : PhysMem) (c e d a : Nat)
    (k : Kernel) : Prop where
  memory : Memory managed k
  slot : e < nenv
  pgdir : (k.envs e).envPgdir = some d
  cr3 : k.vm.cr3 c = a
  kept : KernKept managed m₀ k.vm

section Loading

variable {managed : Set Nat} {m₀ : PhysMem} {k k' : Kernel} {c e d a : Nat}
  {binary : Binary} {sets : Nat → Nat → Nat → Option U32 → Prop}

theorem Loading.dir_mem (h : Loading managed m₀ c e d a k) : d ∈ envDirs k :=
  mem_envDirs.mpr ⟨e, h.slot, h.pgdir⟩

theorem Loading.altered (h : Loading managed m₀ c e d a k)
    (halt : Altered managed sets k k') : Loading managed m₀ c e d a k' := by
  refine ⟨halt.memory, h.slot, ?_, ?_, h.kept.trans halt.frame.kernKept⟩
  · rw [halt.procs.envs]
    exact h.pgdir
  · rw [halt.frame.cr3]
    exact h.cr3

/-- The pages of a region: those between its ends, rounded to pages. -/
theorem regionAlloc_count {va len : U32} (hend : va.toNat + len.toNat ≤ utop.toNat) :
    ((roundUp (va + len) pgsize - roundDown va pgsize) / pgsize).toNat +
      (if (roundUp (va + len) pgsize - roundDown va pgsize) % pgsize ≠ 0#32
        then 1 else 0) = (va.toNat + len.toNat + 4095) / 4096 - va.toNat / 4096 := by
  rw [utop_toNat] at hend
  have hsum : (va + len).toNat = va.toNat + len.toNat := by
    rw [BitVec.toNat_add]
    exact Nat.mod_eq_of_lt (by omega)
  have hup : (roundUp (va + len) pgsize).toNat =
      (va.toNat + len.toNat + 4095) / 4096 * 4096 := by
    rw [roundUp_toNat (by rw [hsum]; omega), hsum]
  have hdown := roundDown_toNat va
  have hsize : (roundUp (va + len) pgsize - roundDown va pgsize).toNat =
      (va.toNat + len.toNat + 4095) / 4096 * 4096 - va.toNat / 4096 * 4096 := by
    rw [BitVec.toNat_sub_of_le (by rw [BitVec.le_def]; omega), hup, hdown]
  have hpg : pgsize.toNat = 4096 := rfl
  have hmod : (roundUp (va + len) pgsize - roundDown va pgsize) % pgsize = 0#32 := by
    apply BitVec.eq_of_toNat_eq
    rw [BitVec.toNat_umod, hsize, hpg, BitVec.toNat_ofNat]
    omega
  rw [if_neg (fun h => h hmod), BitVec.toNat_udiv, hsize, hpg]
  omega

/-- The address of page `i` of a region. -/
theorem regionAlloc_page {va len : U32} {i : Nat}
    (hend : va.toNat + len.toNat ≤ utop.toNat)
    (hi : i < (va.toNat + len.toNat + 4095) / 4096 - va.toNat / 4096) :
    (roundDown va pgsize + BitVec.ofNat 32 i * pgsize).toNat =
      (va.toNat / 4096 + i) * 4096 := by
  rw [utop_toNat] at hend
  rw [BitVec.toNat_add, BitVec.toNat_mul, BitVec.toNat_ofNat, roundDown_toNat va,
    show pgsize.toNat = 4096 from rfl]
  omega

/-- What holds while the pages of a region below `UTOP` are mapped, one after the other. -/
theorem regionAlloc_rule {I : Nat → Kernel → Prop} {va len : U32}
    (h : Loading managed m₀ c e d a k) (hI : I 0 k)
    (hend : va.toNat + len.toNat ≤ utop.toNat)
    (hstep : ∀ i k pg m₁ m₂, Loading managed m₀ c e d a k → I i k →
      i < (va.toNat + len.toNat + 4095) / 4096 - va.toNat / 4096 →
      (pageAlloc false).run k.vm = .ret (some pg) m₁ →
      (pageInsert (k.thisCpu c) d pg (roundDown va pgsize + BitVec.ofNat 32 i * pgsize)
        (pteW ||| pteU)).run m₁ = .ret 0 m₂ → I (i + 1) (k.setVm m₂)) :
    wp (regionAlloc c e va len)
      (Partial (fun _ k' => Loading managed m₀ c e d a k' ∧
        I ((va.toNat + len.toNat + 4095) / 4096 - va.toNat / 4096) k') (fun _ => False)) k := by
  unfold regionAlloc
  dsimp only
  rw [regionAlloc_count hend]
  refine wp_forRange (fun i k => Loading managed m₀ c e d a k ∧ I i k) 0 _
    (fun i k _ hi h => ?_) (fun k h => by rwa [Nat.zero_add] at h) ⟨h, hI⟩
  obtain ⟨h, hI⟩ := h
  rw [Nat.zero_add] at hi
  have hva : roundDown va pgsize + BitVec.ofNat 32 i * pgsize < utop := by
    rw [BitVec.lt_def, regionAlloc_page hend hi]
    rw [utop_toNat] at hend ⊢
    omega
  refine partial_bind (onVm_wp (pageAlloc_stays false) (X := fun _ => False)
    (R := fun r k' => ∃ m, (pageAlloc false).run k.vm = .ret r m ∧
      k' = k.setVm m) (fun r m hrun => ⟨m, hrun, rfl⟩)) ?_ (fun _ => False.elim)
  rintro r _ ⟨m₁, halloc, rfl⟩
  cases r with
  | none => exact trivial
  | some pg =>
      obtain ⟨-, hlt⟩ := pageAlloc_some h.memory halloc
      have hpgdir : ((k.setVm m₁).envs e).envPgdir = some d := h.pgdir
      simp only
      rw [wp_get_bind]
      simp only [hpgdir]
      refine partial_bind (onVm_wp (pageInsert_stays _ _ _ _ _)
        (X := fun _ => False)
        (R := fun r k' => ∃ m, (pageInsert (k.thisCpu c) d pg
          (roundDown va pgsize + BitVec.ofNat 32 i * pgsize)
          (pteW ||| pteU)).run m₁ = .ret r m ∧ k' = k.setVm m)
        (fun r m hrun => ⟨m, hrun, rfl⟩)) ?_ (fun _ => False.elim)
      rintro r _ ⟨m₂, hrun, rfl⟩
      refine wp_ite (fun _ => trivial) (fun hr => ?_)
      rcases pageInsert_ret hrun with rfl | ⟨rfl, -⟩
      · exact ⟨h.altered (insertNew_altered h.memory h.dir_mem hva
          (permFits_of_lt hlt (by decide)) halloc hrun), hstep i k pg m₁ m₂ h hI hi halloc hrun⟩
      · exact absurd (by decide) hr

theorem regionAlloc_loading {va len : U32} (h : Loading managed m₀ c e d a k)
    (hend : va.toNat + len.toNat ≤ utop.toNat) :
    wp (regionAlloc c e va len)
      (Partial (fun _ k' => Loading managed m₀ c e d a k') (fun _ => False)) k :=
  wp_mono (regionAlloc_rule (I := fun _ _ => True) h trivial hend
    (fun _ _ _ _ _ _ _ _ _ _ => trivial)) (fun _ _ h => h.1) (fun _ h => h) (fun _ h => h)

theorem pokes_loading {va : U32} {b : Nat → U8} {n : Nat}
    (h : Loading managed m₀ c e d d k)
    (hend : va.toNat + n ≤ utop.toNat) :
    wp (Prog.forRange 0 n (fun j => pokeByte c (va + BitVec.ofNat 32 j) (b j)))
      (Partial (fun _ k' => Loading managed m₀ c e d d k') (fun _ => False)) k := by
  refine wp_forRange (fun _ k => Loading managed m₀ c e d d k) 0 n
    (fun j k _ hj h => ?_) (fun _ h => h) h
  have hbelow : pdx (va + BitVec.ofNat 32 j) < userPdes := by
    rw [pdx_lt_userPdes, BitVec.lt_def, BitVec.toNat_add, BitVec.toNat_ofNat]
    rw [utop_toNat] at hend ⊢
    omega
  exact wp_mono (pokeByte_stored h.memory (h.cr3.symm ▸ h.dir_mem)
    (Or.inl hbelow))
    (fun _ _ hs => h.altered (hs.altered : Altered managed
      (fun _ _ _ _ => False) _ _))
    (fun _ h => h) (fun _ h => h)

theorem loadSegment_loading {i : Nat} (h : Loading managed m₀ c e d d k)
    (hwf : binary.WellFormed) :
    wp (loadSegment c e binary i)
      (Partial (fun _ k' => Loading managed m₀ c e d d k') (fun _ => False)) k := by
  refine wp_when (fun hload => ?_) (fun _ => h)
  have hend := hwf.fits i hload
  have hfile := hwf.filesz_le i hload
  refine partial_bind (regionAlloc_loading h hend) (fun _ k₁ h₁ => ?_)
    (fun _ h => h)
  refine partial_bind (pokes_loading h₁ hend) (fun _ k₂ h₂ => ?_) (fun _ h => h)
  exact pokes_loading h₂ (by omega)

theorem Loading.lcr3 (h : Loading managed m₀ c e d a k) (a' : Nat) :
    wp (onVm (lcr3 c a'))
      (Partial (fun _ k' => Loading managed m₀ c e d a' k') (fun _ => False)) k :=
  onVm_wp (lcr3_stays c a') (fun _ m hrun => by
    obtain rfl : k.vm.loadCr3 c a' = m := by
      cases hrun
      rfl
    exact ⟨h.memory.congr ⟨rfl, rfl, rfl, rfl, rfl⟩ ⟨rfl, fun _ => rfl, fun _ => rfl,
      fun _ => rfl, fun _ => Iff.rfl⟩, h.slot, h.pgdir, by simp [PhysMem.loadCr3],
      h.kept.trans ⟨rfl, rfl, fun _ _ => rfl⟩⟩)

theorem loadIcode_loading (h : Loading managed m₀ c e d a k)
    (hwf : binary.WellFormed) :
    wp (loadIcode c e binary)
      (Partial (fun _ k' => Memory managed k' ∧ KernKept managed m₀ k'.vm)
        (fun _ => False)) k := by
  refine wp_ite (fun _ => trivial) (fun _ => ?_)
  rw [wp_get_bind]
  simp only [h.pgdir]
  refine partial_bind (h.lcr3 d) (fun _ k₁ h₁ => ?_) (fun _ h => h)
  refine partial_bind (R := fun _ k₂ => Loading managed m₀ c e d d k₂)
    (X := fun _ => False)
    (wp_forRange (fun _ k => Loading managed m₀ c e d d k) 0 _
      (fun i k _ _ h => loadSegment_loading h hwf) (fun _ h => h) h₁)
    (fun _ k₂ h₂ => ?_) (fun _ h => h)
  refine partial_bind (h₂.lcr3 k.vm.kernPgdir) (fun _ k₃ h₃ => ?_) (fun _ h => h)
  rw [wp_modify_bind]
  refine wp_mono (regionAlloc_loading (d := d) (a := k.vm.kernPgdir)
    ⟨h₃.memory.congr ⟨rfl, rfl, rfl, rfl, rfl⟩
      (sameTable_modifyEnv rfl rfl rfl Iff.rfl), h₃.slot, ?_, h₃.cr3, h₃.kept⟩
      (by decide)) (fun _ _ h => ⟨h.memory, h.kept⟩) (fun _ h => h) (fun _ h => h)
  rw [Kernel.modifyEnv_envs_self]
  exact h₃.pgdir

/-- `env_create` keeps the invariant of memory. -/
theorem envCreate_memory {type : EnvType} (h : Memory managed k)
    (hwf : binary.WellFormed) :
    wp (envCreate c binary type)
      (Partial (fun _ k' => Memory managed k' ∧ KernKept managed k.vm k'.vm)
        (fun _ => False)) k := by
  obtain ⟨free, hacc⟩ := h.books.accounted
  refine partial_bind (X := fun _ => False) (wp_of_returns
    (envAlloc_returns hacc h.books.kernDir 0#32) (fun _ _ hr => hr)) ?_
    (fun _ => False.elim)
  rintro r k₁ (⟨-, rfl, -⟩ | ⟨-, -, rfl, -⟩ |
    ⟨e, p, free', vm, hlist, -, rfl, rfl, hadd⟩)
  · exact trivial
  · exact trivial
  obtain ⟨he, -, -, -⟩ := h.books.table.head_free hlist
  have hloading : Loading managed k.vm c e p (vm.cr3 c)
      (k.allocated vm e p 0#32) := by
    refine ⟨h.alloc hlist hadd, he, ?_, rfl, hadd.frame.kernKept⟩
    rw [allocated_envs_self, freshEnv]
  refine partial_bind (loadIcode_loading hloading hwf) (fun _ k₂ hloaded => ?_)
    (fun _ h => h)
  obtain ⟨h₂, hkept⟩ := hloaded
  rw [wp_modify_bind]
  have h₃ : Memory managed
      (k₂.modifyEnv e (fun v => { v with envType := type })) :=
    h₂.congr ⟨rfl, rfl, rfl, rfl, rfl⟩ (sameTable_modifyEnv rfl rfl rfl Iff.rfl)
  exact wp_when (fun _ => ⟨h₃.congr ⟨rfl, rfl, rfl, rfl, rfl⟩
    (sameTable_modifyEnv rfl rfl rfl Iff.rfl), hkept⟩) (fun _ => ⟨h₃, hkept⟩)

end Loading

/-- The first states have the invariant of memory. -/
theorem Booted.memory {managed : Set Nat} {k : Kernel}
    (h : Booted managed k) : Memory managed k := by
  induction h with
  | @init k hinit _ _ _ =>
      refine ⟨hinit.books, fun p => ?_, fun d i hd _ => ?_⟩
      · rw [hinit.envDirs_eq, refCount_empty]
        exact Nat.zero_le _
      · rw [hinit.envDirs_eq] at hd
        exact absurd hd (Finset.notMem_empty d)
  | create binary type _ hwf hrun ih =>
      exact (wp_ret (envCreate_memory ih hwf) hrun).1

/-- In every run of fair steps everything is in order. -/
theorem RunOf.orderly {managed : Set Nat} {Ok : Kernel → Event → Prop}
    {k : Kernel} (hok : ∀ k ev, Ok k ev → ev.Fair k)
    (h : RunOf managed Ok k) : Orderly k ∧ Outside k := by
  induction h with
  | boot hb => exact hb.booting.orderly
  | step ev _ hfair hstep ih => exact ev.orderly ih.1 ih.2 (hok _ _ hfair) hstep

end Jos

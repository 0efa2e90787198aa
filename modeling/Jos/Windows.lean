import Jos.Changes
import Jos.KernSpace
import Mathlib.Data.Finset.Card

/-!
# What user code can read

Above `UTOP` every address space is a copy of `kern_pgdir`, which stays as
`mem_init` has left it (`RunFrom.kernKept`).  User code can read there its own
page tables, and what `mem_init` has mapped at `UPAGES` and `UENVS`: 4 MB from
the start of each array on, whatever the size of the array.
-/

namespace Jos

open Programs LinkedList RefPool

/-! ## Runs from a given memory -/

/-- `env_init`, and the other processors, after `mem_init` has left `s`. -/
structure StartsFrom (s : BootState) (k : Kernel) : Prop where
  memory : SameMem s.vm k.vm
  envs : ∃ k₀ : Kernel, (∀ e, k₀.envs e = Env.zero) ∧ k = envInit k₀
  cpus : ∀ c, k.cpus c = ⟨.started, none, .boot⟩
  cr3 : ∀ c, k.vm.cr3 c = k.vm.kernPgdir
  lock : k.kernelLock = none

/-- The states that `i386_init` reaches from `k₀` before it enters the
scheduler. -/
inductive Creates (k₀ : Kernel) : Kernel → Prop where
  | start : Creates k₀ k₀
  | create {k k' : Kernel} (binary : Binary) (type : EnvType) :
      Creates k₀ k → binary.WellFormed →
      (envCreate 0 binary type).run k = .ret () k' → Creates k₀ k'

/-- The states of a run from `k₀` whose every step satisfies `Ok`. -/
inductive RunFrom (k₀ : Kernel) (Ok : Kernel → Event → Prop) : Kernel → Prop where
  | boot {k : Kernel} : Creates k₀ k → RunFrom k₀ Ok k
  | step {k k' : Kernel} (ev : Event) :
      RunFrom k₀ Ok k → Ok k ev → ev.step k = some k' → RunFrom k₀ Ok k'

/-! ## What is to be read -/

namespace Kernel

/-- Page `p` is a page directory or page table of environment `e`, or the
environment maps it below `UTOP`. -/
def Owns (k : Kernel) (e p : Nat) : Prop :=
  ∃ d, (k.envs e).envPgdir = some d ∧
    (p = d ∨ (∃ i, i < npdentries ∧ i ≠ pdx uvpt ∧ tableOf k.vm.mem d i = some p) ∨
      ∃ i j, i < userPdes ∧ j < nptentries ∧ mappedPage k.vm.mem d i j = some p)

/-- User code of environment `e` can read page `p`. -/
def CanRead (k : Kernel) (e p : Nat) : Prop :=
  ∃ d va, (k.envs e).envPgdir = some d ∧ k.vm.userPage d va false = some p

end Kernel

/-- Page `p` has some of the `n` bytes from physical address `a` on. -/
def Overlaps (p a n : Nat) : Prop :=
  a < (p + 1) * 4096 ∧ p * 4096 < a + n

/-- Page `p` has a part of the array `pages` or of the array `envs`. -/
def BootState.InArrays (s : BootState) (p : Nat) : Prop :=
  Overlaps p (s.pagesVa - kernbase).toNat (s.vm.npages * pageInfoSize.toNat) ∨
    Overlaps p (s.envsVa - kernbase).toNat (nenv * envSize.toNat)

/-- User code of environment `e` can read what the environment owns, and the
arrays. -/
def Kernel.Confined (s : BootState) (k : Kernel) (e : Nat) : Prop :=
  ∀ p, k.CanRead e p → k.Owns e p ∨ s.InArrays p

section Windows

variable {managed : Set Nat} {b : BootInfo} {s : BootState} {k k' k₀ : Kernel}
  {Ok : Kernel → Event → Prop} {c d e p : Nat} {ev : Event}

/-! ## `kern_pgdir` stays -/

/-- A change leaves the pages of the kernel alone. -/
theorem Change.kernKept (h : Change managed c k k') :
    KernKept managed k.vm k'.vm := by
  cases h with
  | quiet hq =>
      obtain ⟨a, ha⟩ := hq.memory
      rw [ha]
      exact ⟨rfl, rfl, fun _ _ => rfl⟩
  | vm op hm hdir hvalid hsafe hdoes =>
      exact (hdoes.altered hm hdir hvalid hsafe).frame.kernKept
  | envAlloc e p vm free parentId hm hlist hadd => exact hadd.frame.kernKept
  | envFree e d hm he hd hfreed =>
      refine KernKept.trans ?_
        hfreed.space.frame.kernKept
      unfold PhysMem.leaveDir
      split
      · exact ⟨rfl, rfl, fun _ _ => rfl⟩
      · exact .refl _ _
  | store va b p hm hdir hp =>
      exact (hm.userStore hdir hp (pgoff va) b).frame.kernKept
  | _ => exact ⟨rfl, rfl, fun _ _ => rfl⟩

theorem Creates.booted (h : Creates k₀ k) (h₀ : Booted managed k₀) :
    Booted managed k := by
  induction h with
  | start => exact h₀
  | create binary type _ hwf hrun ih => exact .create binary type ih hwf hrun

theorem RunFrom.runOf (h : RunFrom k₀ Ok k) (h₀ : Booted managed k₀) :
    RunOf managed Ok k := by
  induction h with
  | boot hc => exact .boot (hc.booted h₀)
  | step ev _ hok hstep ih => exact .step ev ih hok hstep

/-- Throughout a run the pages of the kernel keep their words. -/
theorem RunFrom.kernKept (h : RunFrom k₀ (fun k ev => ev.Clean k) k)
    (h₀ : Booted managed k₀) : KernKept managed k₀.vm k.vm := by
  induction h with
  | boot hc =>
      induction hc with
      | start => exact .refl _ _
      | create binary type hc hwf hrun ih =>
          exact ih.trans
            (wp_ret (envCreate_memory (hc.booted h₀).memory hwf) hrun).2
  | step ev hrun hclean hstep ih =>
      refine ih.trans (Event.step_induction
        (R := fun k k' => KernKept managed k.vm k'.vm) (fun _ => .refl _ _)
        (fun _ _ _ h h' => h.trans h') (fun _ _ _ h => h.kernKept)
        ((hrun.runOf h₀).sound (fun _ _ h => h)) hclean hstep)

/-- After `mem_init` the machine is ready to start, and the allocator manages
pages that `page_init` has found free. -/
theorem StartsFrom.booted (h : StartsFrom s k₀) (hb : MemInit b s) :
    ∃ managed, (∀ p, p ∈ managed → b.FreePage p) ∧ Booted managed k₀ := by
  obtain ⟨managed, hfree, hleaves⟩ := hb.kernMapped.leaves
  have hm := h.memory
  refine ⟨managed, hfree, .init ⟨⟨?_, ?_, ?_, ?_, hleaves.kernDir.congr hm⟩, h.envs⟩
    h.cpus h.cr3 h.lock⟩
  · rw [hm.pages, hm.freeList]
    exact hleaves.freeList
  · rw [hm.pages]
    exact hleaves.unreferenced
  · rw [hm.npages]
    exact hleaves.managed_lt
  · rw [hm.npages]
    exact hleaves.npages_le

/-! ## Above `UTOP` -/

/-- The part of an address space above `UTOP`: its tables are those of
`kern_pgdir`, with the words that `mem_init` has left. -/
structure UpperSpace (l : Layout) (m : PhysMem) (d : Nat) : Prop where
  self : m.mem d (pdx uvpt) = page2pa d ||| pteP ||| pteU
  words : ∀ i t j, userPdes ≤ i → i < npdentries → i ≠ pdx uvpt →
    tableOf m.mem d i = some t → j < nptentries →
    HasFlag (m.mem d i) pteU ∧ m.mem t j = l i j
  mapped : ∀ i j, userPdes ≤ i → i < npdentries → i ≠ pdx uvpt →
    j < nptentries → l i j ≠ 0#32 → tableOf m.mem d i ≠ none

theorem Mapping.upperSpace {ok : Prop} {l : Layout}
    (hmap : Mapping ok b.dirPage b.FreePage l s.vm) (hm : SameMem s.vm k₀.vm)
    (hfree : ∀ p, p ∈ managed → b.FreePage p)
    (hkept : KernKept managed k₀.vm k.vm) (h : Memory managed k)
    (hd : d ∈ envDirs k) : UpperSpace l k.vm d := by
  obtain ⟨free, hspace, -⟩ := hmap
  have hkern : k.vm.kernPgdir = b.dirPage := by
    rw [hkept.kernPgdir, hm.kernPgdir, hspace.kernPgdir]
  have hold : ∀ p, p ∉ managed → k.vm.mem p = s.vm.mem p := fun p hp => by
    rw [hkept.outside p hp, hm.mem]
  have hdir : k.vm.mem b.dirPage = s.vm.mem b.dirPage :=
    hold _ (fun hh => hspace.dir (hfree _ hh))
  have hword : ∀ i, userPdes ≤ i → i ≠ pdx uvpt →
      k.vm.mem d i = s.vm.mem b.dirPage i := fun i hi hne => by
    rw [h.upper d i hd hi, newDir, Function.update_of_ne hne, hkern, hdir]
  have htable : ∀ i, userPdes ≤ i → i ≠ pdx uvpt →
      tableOf k.vm.mem d i = tableOf s.vm.mem b.dirPage i := fun i hi hne => by
    rw [tableOf, tableOf, hword i hi hne]
  refine ⟨?_, ?_, ?_⟩
  · rw [h.upper d _ hd (by decide), newDir, Function.update_self]
  · intro i t j hi hlt hne ht hj
    rw [hword i hi hne]
    rw [htable i hi hne] at ht
    have hnot : t ∉ managed := by
      refine h.books.kernDir.table i t hi hlt hne ?_
      rw [tableOf, hkern, hdir]
      exact ht
    rw [hold t hnot]
    exact ⟨hspace.user i t hne ht, hspace.words i t j hne ht hj⟩
  · intro i j hi _ hne hj hl
    rw [htable i hi hne]
    exact hspace.mapped i j hne hj hl

/-! ## The windows -/

/-- The arrays lie where `boot_alloc` has put them. -/
theorem KernMapped.inArrays (hb : KernMapped b s) :
    s.InArrays p ↔ b.pagesPage ≤ p ∧ p < b.usedPage := by
  obtain ⟨-, hpages, -⟩ := paddr_page hb.pagesVa
  obtain ⟨-, henvs, -⟩ := paddr_page hb.envsVa
  obtain ⟨-, henvsPage, hused⟩ := b.pages_eq
  have hsize : nenv * envSize.toNat = 31 * 4096 := by decide
  have hinfo : pageInfoSize.toNat = 8 := by decide
  unfold BootState.InArrays Overlaps
  rw [hpages, henvs, hsize, hinfo, hb.npages]
  omega

/-- An address in the window at directory slot `i`. -/
theorem UpperSpace.canRead {l : Layout} {i j q : Nat} (h : UpperSpace l k.vm d)
    (hd : (k.envs e).envPgdir = some d) (hi : userPdes ≤ i) (hlt : i < npdentries)
    (hne : i ≠ pdx uvpt) (hj : j < nptentries) (hq : q < 2 ^ 20)
    (hl : l i j = page2pa q ||| pteP ||| pteU) : k.CanRead e q := by
  have hflag : HasFlag (l i j) pteP ∧ HasFlag (l i j) pteU := by
    rw [hl, hasFlag_or, hasFlag_or, hasFlag_or, hasFlag_or]
    exact ⟨Or.inl (Or.inr (by decide)), Or.inr (by decide)⟩
  have hnum : pgnum (l i j) = q := by
    rw [hl, BitVec.or_assoc]
    exact pgnum_page2pa_or hq (by decide)
  have hnz : l i j ≠ 0#32 := by
    intro hh
    rw [hh] at hflag
    exact not_hasFlag_zero pteP hflag.1
  obtain ⟨t, ht⟩ := Option.ne_none_iff_exists'.mp (h.mapped i j hi hlt hne hj hnz)
  obtain ⟨huser, hword⟩ := h.words i t j hi hlt hne ht hj
  refine ⟨d, pgaddr i j 0, hd, userPage_eq_some.mpr ⟨l i j, ?_, hnum, ?_, ?_⟩⟩
  · rw [pdx_pgaddr hlt hj, ptx_pgaddr hlt hj]
    exact entryOf_eq_some.mpr ⟨t, ht, hword, hflag.1⟩
  · unfold PhysMem.xlateHas
    rw [pdx_pgaddr hlt hj]
    exact ⟨huser, hflag.2⟩
  · exact fun hh => absurd hh (by decide)

/-- What user code reads is the environment's, or behind a window. -/
theorem UpperSpace.cases {l : Layout} (h : UpperSpace l k.vm d) (hw : Windows b l)
    (hd : (k.envs e).envPgdir = some d) (hdlt : d < 2 ^ 20)
    (hr : k.CanRead e p) (hq : b.envsPage + nptentries ≤ 2 ^ 20) :
    k.Owns e p ∨ (b.pagesPage ≤ p ∧ p < b.envsPage + nptentries) := by
  obtain ⟨-, henvsPage, -⟩ := b.pages_eq
  obtain ⟨henvs, hpages, huvpt, -, -⟩ := pdx_windows
  obtain ⟨d', va, hd', hpage⟩ := hr
  obtain rfl := Option.some.inj (hd.symm.trans hd')
  obtain ⟨w, hentry, rfl, ⟨-, huser⟩, -⟩ := userPage_eq_some.mp hpage
  obtain ⟨t, ht, hword, hpres⟩ := entryOf_eq_some.mp hentry
  have hj : ptx va < nptentries := ptx_lt va
  by_cases hbelow : pdx va < userPdes
  · exact Or.inl ⟨d, hd, Or.inr (Or.inr ⟨pdx va, ptx va, hbelow, hj,
      mappedPage_eq_some.mpr ⟨w, hentry, rfl⟩⟩)⟩
  have habove : userPdes ≤ pdx va := Nat.le_of_not_lt hbelow
  by_cases hself : pdx va = pdx uvpt
  · -- the table of this slot is the directory
    have htd : t = d := by
      have hnum := (tableOf_eq_some.mp ht).2
      rw [hself, h.self, BitVec.or_assoc, pgnum_page2pa_or hdlt (by decide)] at hnum
      exact hnum.symm
    rw [htd] at hword
    left
    refine ⟨d, hd, ?_⟩
    by_cases hslot : ptx va = pdx uvpt
    · left
      rw [hslot, h.self] at hword
      rw [← hword, BitVec.or_assoc]
      exact pgnum_page2pa_or hdlt (by decide)
    · right
      left
      refine ⟨ptx va, hj, hslot, tableOf_eq_some.mpr ?_⟩
      rw [hword]
      exact ⟨hpres, rfl⟩
  have hl := (h.words (pdx va) t (ptx va) habove (pdx_lt va) hself ht hj).2
  have hnum : ∀ q, q < 2 ^ 20 → w = page2pa q ||| pteP ||| pteU → pgnum w = q :=
    fun q hqlt hwq => by
      rw [hwq, BitVec.or_assoc]
      exact pgnum_page2pa_or hqlt (by decide)
  rw [hword] at hl
  have hj' : ptx va < 1024 := hj
  have hn : nptentries = 1024 := rfl
  rw [hn] at hq ⊢
  right
  by_cases hpw : pdx va = pdx upages
  · rw [hpw, hw.pagesWindow _ hj] at hl
    rw [hnum _ (by omega) hl]
    omega
  · by_cases hew : pdx va = pdx uenvs
    · rw [hew, hw.envsWindow _ hj] at hl
      rw [hnum _ (by omega) hl]
      omega
    · exact absurd (hl ▸ huser) (hw.others _ _ hj hpw hew)

/-- Exactly when user code reads no more than it should. -/
theorem KernMapped.confined_iff (hb : KernMapped b s) (hm : SameMem s.vm k₀.vm)
    (hfree : ∀ p, p ∈ managed → b.FreePage p)
    (hkept : KernKept managed k₀.vm k.vm) (h : Memory managed k)
    (hlive : k.Live e) :
    k.Confined s e ↔
      ∀ p, b.usedPage ≤ p → p < b.envsPage + nptentries → k.Owns e p := by
  obtain ⟨l, hmap, hw⟩ := hb.mapped
  obtain ⟨d, hd, hdir⟩ := h.books.live_pgdir hlive
  have hup := hmap.upperSpace hm hfree hkept h hdir
  have hdlt : d < 2 ^ 20 := by
    obtain ⟨free, hacc⟩ := h.books.accounted
    exact hacc.ledger.lt_two_pow (hacc.spaces.dir_managed d hdir)
  obtain ⟨-, henvsPage, hused⟩ := b.pages_eq
  have hfits := b.fits_iff.mp hb.fits
  have hn : nptentries = 1024 := rfl
  constructor
  · intro hconf p hge hlt
    rw [hn] at hlt
    have hread : k.CanRead e p := by
      refine hup.canRead (i := pdx uenvs) (j := p - b.envsPage) hd (by decide)
        (by decide) (by decide) (by rw [hn]; omega) (by omega) ?_
      rw [hw.envsWindow _ (by rw [hn]; omega),
        show b.envsPage + (p - b.envsPage) = p by omega]
    refine (hconf p hread).resolve_right (fun hin => ?_)
    have := hb.inArrays.mp hin
    omega
  · intro hall p hread
    rcases hup.cases hw hd hdlt hread (by rw [hn]; omega) with hown | ⟨hge, hlt⟩
    · exact Or.inl hown
    · rcases Nat.lt_or_ge p b.usedPage with hin | hout
      · exact Or.inr (hb.inArrays.mpr ⟨hge, hin⟩)
      · exact Or.inl (hall p hout hlt)

/-! ## The first environment -/

/-- Below `UTOP` directory `d` has at most the table `t` and the page `p`. -/
def OnePage (mem : Mem) (d t p : Nat) : Prop :=
  (∀ i t', i < userPdes → tableOf mem d i = some t' → t' = t) ∧
    ∀ i j p', i < userPdes → j < nptentries → mappedPage mem d i j = some p' → p' = p

/-- `load_icode` allocates the stack in an empty address space. -/
theorem regionAlloc_stack {free : List Nat} (h : Memory managed k)
    (hd : (k.envs e).envPgdir = some d) (he : e < nenv)
    (hempty : ∀ i, i < userPdes → tableOf k.vm.mem d i = none)
    (hacc : Accounted managed free ∅ (envDirs k) k.vm) (hlen : 2 ≤ free.length) :
    Returns (regionAlloc c e (ustacktop - pgsize) pgsize)
      (fun _ k' => ∃ t p m, k' = k.setVm m ∧ OnePage m.mem d t p) k := by
  have hdir : d ∈ envDirs k := mem_envDirs.mpr ⟨e, he, hd⟩
  unfold regionAlloc
  dsimp only
  generalize hn : ((roundUp (ustacktop - pgsize + pgsize) pgsize -
    roundDown (ustacktop - pgsize) pgsize) / pgsize).toNat +
    (if (roundUp (ustacktop - pgsize + pgsize) pgsize -
      roundDown (ustacktop - pgsize) pgsize) % pgsize ≠ 0#32 then 1 else 0) = n
  obtain rfl : n = 1 := by
    rw [← hn]
    decide
  have hva : roundDown (ustacktop - pgsize) pgsize + BitVec.ofNat 32 0 * pgsize < utop := by
    decide
  unfold Prog.forRange Prog.forRange
  refine returns_bind (R := fun _ k' => ∃ t p m, k' = k.setVm m ∧ OnePage m.mem d t p)
    (returns_bind (onVm_returns (pageAlloc_returns false hacc)) ?_)
    (fun _ _ hh => hh)
  rintro r _ ⟨m₁, rfl, ⟨rfl, -, -⟩ | ⟨p, free', rfl, rfl, hall⟩⟩
  · exact absurd hlen (by decide)
  have hpgdir : ((k.setVm m₁).envs e).envPgdir = some d := hd
  simp only
  refine (wp_get_bind).mpr ?_
  simp only [hpgdir]
  generalize roundDown (ustacktop - pgsize) pgsize + BitVec.ofNat 32 0 * pgsize = va
    at hva ⊢
  have hheld : p ∈ insert p (∅ : Finset Nat) := Finset.mem_insert_self _ _
  have hzero := hall.accounted.ledger.pool.held_unreferenced p hheld
  have hmap : Mappable managed (envDirs k) m₁.mem p :=
    ⟨hall.accounted.ledger.pool.held_managed p hheld,
      Accounted.not_dir_of_unreferenced hzero,
      fun d i hd hi => Accounted.not_table_of_unreferenced hzero hd hi⟩
  have hlt := hall.accounted.ledger.lt_two_pow hmap.managed
  refine returns_bind (onVm_returns (pageInsert_inserts hall.accounted hdir hva hmap
    (hall.accounted.ledger.pool.not_free_of_held hheld) (permFits_of_lt hlt (by decide))
    (fun q => (congrFun hall.views.refCount_eq q).trans_le (h.counts q)))) ?_
  rintro r _ ⟨m₂, rfl, ⟨rfl, -⟩ | ⟨rfl, t, free₂, hins⟩⟩
  · exact absurd hlen (by simp)
  rw [Kernel.setVm_vm] at hins
  refine wp_ite (fun hneg => absurd hneg (by decide)) (fun _ => ?_)
  have htables : ∀ i, i < userPdes → tableOf m₁.mem d i = none := fun i hi => by
    rw [hall.views.table d i hdir hi]
    exact hempty i hi
  have hi := (pdx_lt_userPdes va).mpr hva
  have honly : ∀ i t', i < userPdes → tableOf m₂.mem d i = some t' → i = pdx va := by
    intro i t' hi' ht'
    by_contra hne
    rw [hins.tables d i hdir hi' (fun hh => hne hh.2), htables i hi'] at ht'
    exact absurd ht' (by simp)
  refine ⟨t, p, m₂, rfl, fun i t' hi' ht' => ?_, fun i j p' hi' hj hp' => ?_⟩
  · obtain rfl := honly i t' hi' ht'
    exact Option.some.inj (ht'.symm.trans hins.table)
  · obtain ⟨w, hw, rfl⟩ := mappedPage_eq_some.mp hp'
    obtain ⟨t', ht', -, -⟩ := entryOf_eq_some.mp hw
    obtain rfl := honly i t' hi' ht'
    by_cases hjj : j = ptx va
    · subst hjj
      rw [hins.here] at hw
      obtain rfl := Option.some.inj hw
      rw [BitVec.or_assoc]
      exact pgnum_page2pa_or hlt (by decide)
    · rw [hins.entries d _ j hdir hi' hj (fun hh => hjj hh.2.2),
        entryOf_of_no_table (htables _ hi')] at hw
      exact absurd hw (by simp)

/-- `load_icode` with an image without segments. -/
theorem loadIcode_empty {free : List Nat} (h : Memory managed k)
    (hlive : k.Live e) (hd : (k.envs e).envPgdir = some d)
    (hempty : ∀ i, i < userPdes → tableOf k.vm.mem d i = none)
    (hacc : Accounted managed free ∅ (envDirs k) k.vm) (hlen : 2 ≤ free.length) :
    Returns (loadIcode c e emptyBinary) (fun _ k' => k'.Live e ∧
      (k'.envs e).envPgdir = some d ∧ ∃ t p, OnePage k'.vm.mem d t p) k := by
  unfold loadIcode
  rw [if_neg (by decide)]
  refine (wp_get_bind).mpr ?_
  simp only [hd]
  refine wp_ret_bind (t := k.setVm (k.vm.loadCr3 c d)) rfl ?_
  have hphnum : emptyBinary.ePhnum = 0 := by decide
  rw [hphnum]
  refine wp_ret_bind (t := k.setVm (k.vm.loadCr3 c d)) rfl ?_
  refine wp_ret_bind
    (t := k.setVm ((k.vm.loadCr3 c d).loadCr3 c k.vm.kernPgdir)) rfl ?_
  rw [wp_modify_bind]
  generalize hk₁ : (k.setVm ((k.vm.loadCr3 c d).loadCr3 c k.vm.kernPgdir)).modifyEnv e
    (fun v => { v with envTf := { v.envTf with tfEip := emptyBinary.eEntry } }) = k₁
  have hm : SameMem k.vm k₁.vm := by
    rw [← hk₁]
    exact ⟨rfl, rfl, rfl, rfl, rfl⟩
  have ht : SameTable k k₁ := by
    rw [← hk₁]
    exact SameTable.trans
      (show SameTable k (k.setVm ((k.vm.loadCr3 c d).loadCr3 c k.vm.kernPgdir)) from
        ⟨rfl, fun _ => rfl, fun _ => rfl, fun _ => rfl, fun _ => Iff.rfl⟩)
      (sameTable_modifyEnv rfl rfl rfl Iff.rfl)
  have hlive₁ : k₁.Live e := ⟨hlive.1, fun hh => hlive.2 ((ht.free e).mp hh)⟩
  have hd₁ : (k₁.envs e).envPgdir = some d := (ht.pgdir e).trans hd
  have hacc₁ : Accounted managed free ∅ (envDirs k₁) k₁.vm := by
    rw [ht.envDirs_eq]
    refine ⟨?_, hm.mem ▸ hacc.spaces⟩
    rw [hm.mem]
    exact hacc.ledger.congr hm.pages hm.freeList hm.npages
  refine (regionAlloc_stack (h.congr hm ht) hd₁ hlive.1
    (fun i hi => by rw [hm.mem]; exact hempty i hi) hacc₁ hlen).mono ?_
  rintro _ _ ⟨t, p, m, rfl, hone⟩
  exact ⟨hlive₁, hd₁, t, p, hone⟩

/-- `env_create` with an image without segments. -/
theorem envCreate_empty {free : List Nat} (h : Memory managed k)
    (hlist : k.envFreeList = some e)
    (hacc : Accounted managed free ∅ (envDirs k) k.vm) (hlen : 3 ≤ free.length) :
    Returns (envCreate c emptyBinary .user) (fun _ k' => k'.Live e ∧
      ∃ d t p, (k'.envs e).envPgdir = some d ∧ OnePage k'.vm.mem d t p) k := by
  obtain ⟨he, -, -, -⟩ := h.books.table.head_free hlist
  unfold envCreate
  refine returns_bind (envAlloc_returns hacc h.books.kernDir 0#32) ?_
  rintro r k₁ (⟨hnone, -, -⟩ | ⟨-, rfl, -, -⟩ | ⟨e', d, free', vm, hlist', rfl, rfl, rfl, hadd⟩)
  · rw [hlist] at hnone
    exact absurd hnone (by simp)
  · exact absurd hlen (by decide)
  obtain rfl := Option.some.inj (hlist.symm.trans hlist')
  have hpgdir : ((k.allocated vm e d 0#32).envs e).envPgdir = some d := by
    rw [allocated_envs_self, freshEnv]
  have hlive : (k.allocated vm e d 0#32).Live e := by
    refine ⟨he, ?_⟩
    rw [allocated_envs_self, freshEnv]
    simp
  have hempty : ∀ i, i < userPdes → tableOf vm.mem d i = none := fun i hi => by
    rw [tableOf_eq_none, hadd.template]
    exact newDir_empty h.books.kernDir hi
  have hacc₁ := hadd.accounted
  have hdirs : envDirs (k.allocated vm e d 0#32) = insert d (envDirs k) :=
    envDirs_allocated h.books.table hlist
  rw [← hdirs] at hacc₁
  refine returns_bind (loadIcode_empty (h.alloc hlist hadd) hlive hpgdir hempty hacc₁
    (by rw [List.length_cons] at hlen; omega)) ?_
  rintro _ k₂ ⟨hlive₂, hd₂, t, p, hone⟩
  refine (wp_modify_bind).mpr (wp_when (fun hh => absurd hh (by decide)) (fun _ => ?_))
  refine ⟨⟨hlive₂.1, ?_⟩, d, t, p, ?_, hone⟩
  · rw [Kernel.modifyEnv_envs_self]
    exact hlive₂.2
  · rw [Kernel.modifyEnv_envs_self]
    exact hd₂

/-- An environment with one page owns at most 72: its directory, the page, the
table for it, and the tables above `UTOP`. -/
theorem OnePage.not_owns {t q lo hi : Nat} (h : OnePage k.vm.mem d t q)
    (hd : (k.envs e).envPgdir = some d) (hlo : lo + 72 < hi) :
    ¬ ∀ p, lo ≤ p → p < hi → k.Owns e p := by
  intro hall
  let tables : Finset Nat :=
    (Finset.Ico userPdes npdentries).image (fun i => (tableOf k.vm.mem d i).getD 0)
  have hsub : Finset.Ico lo hi ⊆ insert d (insert t (insert q tables)) := by
    intro p hp
    obtain ⟨hge, hlt⟩ := Finset.mem_Ico.mp hp
    obtain ⟨d', hd', hown⟩ := hall p hge hlt
    obtain rfl := Option.some.inj (hd.symm.trans hd')
    simp only [Finset.mem_insert]
    rcases hown with rfl | ⟨i, hi, -, ht⟩ | ⟨i, j, hi, hj, hmap⟩
    · exact Or.inl rfl
    · rcases Nat.lt_or_ge i userPdes with hbelow | habove
      · exact Or.inr (Or.inl (h.1 i p hbelow ht))
      · refine Or.inr (Or.inr (Or.inr (Finset.mem_image.mpr
          ⟨i, Finset.mem_Ico.mpr ⟨habove, hi⟩, ?_⟩)))
        rw [ht, Option.getD_some]
    · exact Or.inr (Or.inr (Or.inl (h.2 i j p hi hj hmap)))
  have htables : tables.card ≤ 69 :=
    Finset.card_image_le.trans (by rw [Nat.card_Ico]; decide)
  have hcard := Finset.card_le_card hsub
  have h₁ := Finset.card_insert_le d (insert t (insert q tables))
  have h₂ := Finset.card_insert_le t (insert q tables)
  have h₃ := Finset.card_insert_le q tables
  rw [Nat.card_Ico] at hcard
  omega

theorem PhysMem.ThreeFree.le_length {free : List Nat} {m : PhysMem} (h : m.ThreeFree)
    (hchain : Chain (fun p => (m.pages p).ppLink) m.pageFreeList free) :
    3 ≤ free.length := by
  obtain ⟨p, q, r, hp, hq, hr⟩ := h
  match free, hchain with
  | [], hchain => exact absurd (hp.symm.trans hchain) (by simp)
  | [x], hchain =>
      obtain ⟨hx, hnil⟩ := hchain
      obtain rfl := Option.some.inj (hp.symm.trans hx)
      exact absurd (hq.symm.trans hnil) (by simp)
  | [x, y], hchain =>
      obtain ⟨hx, hy, hnil⟩ := hchain
      obtain rfl := Option.some.inj (hp.symm.trans hx)
      obtain rfl := Option.some.inj (hq.symm.trans hy)
      exact absurd (hr.symm.trans hnil) (by simp)
  | x :: y :: z :: rest, _ =>
      rw [List.length_cons, List.length_cons, List.length_cons]
      omega

/-- Whatever memory `mem_init` has found, the first environment reads pages
that are neither its own nor of the arrays. -/
theorem StartsFrom.not_confined (h : StartsFrom s k₀) (hb : MemInit b s) :
    ∃ k, Creates k₀ k ∧ k.Live 0 ∧ ¬ k.Confined s 0 := by
  obtain ⟨managed, hfree, hbooted⟩ := h.booted hb
  have hm := hbooted.memory
  have hmapped := hb.kernMapped
  have hlist : k₀.envFreeList = some 0 := by
    obtain ⟨k₁, -, rfl⟩ := h.envs
    rfl
  have hthree : k₀.vm.ThreeFree := by
    obtain ⟨s₀, s₁, s₂, m₁, m, -, -, -, -, -, -, hthree, rfl⟩ := hb
    unfold PhysMem.ThreeFree
    rw [h.memory.freeList, h.memory.pages]
    exact hthree
  obtain ⟨free, hacc⟩ := hm.books.accounted
  have hlen := hthree.le_length hacc.ledger.chain
  obtain ⟨⟨⟩, k, hrun, hlive, d, t, q, hd, hone⟩ :=
    returns_iff.mp (envCreate_empty (c := 0) hm hlist hacc hlen)
  have hc : Creates k₀ k := .create emptyBinary .user .start emptyBinary_wellFormed hrun
  refine ⟨k, hc, hlive, fun hconf => ?_⟩
  obtain ⟨-, -, hused⟩ := b.pages_eq
  have hn : nptentries = 1024 := rfl
  exact hone.not_owns hd (by rw [hn]; omega) ((hmapped.confined_iff h.memory hfree
    ((RunFrom.boot hc).kernKept hbooted) (hc.booted hbooted).memory hlive).mp hconf)

/-- The windows show 4 MB from the start of each array on.  So user code reads
no more than its own pages and the arrays exactly when its environment owns
all the pages behind the arrays; and the first environment does not. -/
theorem windows_confined (hb : MemInit b s) (h : StartsFrom s k₀) :
    (∀ k e, RunFrom k₀ (fun k ev => ev.Clean k) k → k.Live e →
      (k.Confined s e ↔
        ∀ p, b.usedPage ≤ p → p < b.envsPage + nptentries → k.Owns e p)) ∧
      ∃ k e, RunFrom k₀ (fun k ev => ev.Clean k) k ∧ k.Live e ∧
        ¬ k.Confined s e := by
  obtain ⟨managed, hfree, hbooted⟩ := h.booted hb
  constructor
  · intro k e hrun hlive
    exact hb.kernMapped.confined_iff h.memory hfree (hrun.kernKept hbooted)
      ((hrun.runOf hbooted).sound (fun _ _ hh => hh)).memory hlive
  · obtain ⟨k, hc, hlive, hno⟩ := h.not_confined hb
    exact ⟨k, 0, .boot hc, hlive, hno⟩

end Windows

/-! ## A machine with 8 MB -/

/-- A kernel of half a megabyte, 640 KB of base memory, and 7 MB of extended
memory. -/
def smallBoot : BootInfo where
  kernelEnd := 0xF0180000#32
  bootstack := 0xF0130000#32
  percpuKstacks i := 0xF0140000#32 + BitVec.ofNat 32 (i % 8) * kstksize
  basemem := 640#16
  extmem := 7168#16
  ext16mem := 0#16
  linked := by decide
  bootstack_linked := by decide
  bootstack_aligned := by decide
  percpuKstacks_linked i := by
    have hlt := Nat.mod_lt i (show 0 < 8 by decide)
    generalize i % 8 = j at hlt
    interval_cases j <;> decide
  percpuKstacks_aligned i := by
    have hlt := Nat.mod_lt i (show 0 < 8 by decide)
    generalize i % 8 = j at hlt
    interval_cases j <;> decide

theorem smallBoot_enough : smallBoot.Enough :=
  ⟨by unfold BootInfo.Fits; decide, by decide, by decide⟩

/-- A machine to start from. -/
theorem exists_startsFrom (s : BootState) : ∃ k₀, StartsFrom s k₀ := by
  let k : Kernel := { bootKernel 2 1 with
    vm := { s.vm with cr3 := fun _ => s.vm.kernPgdir }
    envs := fun _ => Env.zero }
  exact ⟨envInit k, ⟨rfl, rfl, rfl, rfl, rfl⟩, ⟨k, fun _ => rfl, rfl⟩, fun _ => rfl,
    fun _ => rfl, rfl⟩

theorem windows_confined_small : ∃ s k₀, MemInit smallBoot s ∧ StartsFrom s k₀ ∧
    ((∀ k e, RunFrom k₀ (fun k ev => ev.Clean k) k → k.Live e →
      (k.Confined s e ↔ ∀ p, smallBoot.usedPage ≤ p →
        p < smallBoot.envsPage + nptentries → k.Owns e p)) ∧
      ∃ k e, RunFrom k₀ (fun k ev => ev.Clean k) k ∧ k.Live e ∧
        ¬ k.Confined s e) := by
  obtain ⟨s, hs⟩ := memInit_completes smallBoot_enough
  obtain ⟨k₀, hk₀⟩ := exists_startsFrom s
  exact ⟨s, k₀, hs, hk₀, windows_confined hs hk₀⟩

/-- On this machine user code reads free pages through `UENVS`. -/
theorem not_windows_confined :
    ¬ ∀ (b : BootInfo) (s : BootState) (k₀ k : Kernel) (e : Nat), MemInit b s →
      StartsFrom s k₀ → RunFrom k₀ (fun _ _ => True) k → k.Live e →
      k.Confined s e := by
  intro hall
  obtain ⟨s, hs⟩ := memInit_completes smallBoot_enough
  obtain ⟨k₀, hk₀⟩ := exists_startsFrom s
  obtain ⟨k, hc, hlive, hno⟩ := hk₀.not_confined hs
  exact hno (hall smallBoot s k₀ k 0 hs hk₀ (.boot hc) hlive)

end Jos

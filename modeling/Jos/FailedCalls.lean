import Jos.Checks
import Jos.Confinement

/-!
# Calls that fail

When `sys_page_alloc`, `sys_page_map` or `sys_page_unmap` returns an error, at most a
page was allocated, zeroed and freed again: the free list and the reference counts are
the same, and so is the memory, but for that page (`GaveBack.vm`).  It is no page table
as long as the books are right, and so the call has changed nothing (`failed_unchanged`).
-/

namespace Jos

open Programs LinkedList

/-- Page `p` is the page directory or a page table of an environment. -/
inductive Kernel.IsTable (k : Kernel) (p : Nat) : Prop where
  | dir {e : Nat} : e < nenv → (k.envs e).envPgdir = some p → IsTable k p
  | table {e d i : Nat} : e < nenv → (k.envs e).envPgdir = some d → i < npdentries →
      tableOf k.vm.mem d i = some p → IsTable k p

/-- The page tables of all environments, the reference counts and the free list are the
same. -/
structure Unchanged (k k' : Kernel) : Prop where
  pgdir : ∀ e, (k'.envs e).envPgdir = (k.envs e).envPgdir
  tables : ∀ p, k.IsTable p → k'.vm.mem p = k.vm.mem p
  ppRef : ∀ p, (k'.vm.pages p).ppRef = (k.vm.pages p).ppRef
  freeList : ∀ l, Chain (fun p => (k'.vm.pages p).ppLink) k'.vm.pageFreeList l ↔
    Chain (fun p => (k.vm.pages p).ppLink) k.vm.pageFreeList l

section Calls

variable {managed : Set Nat} {k k' k₀ k₁ : Kernel} {ev : Event} {call : Call} {io : Inputs}
  {c cur p : Nat} {r : Int}

theorem Unchanged.refl : Unchanged k k :=
  ⟨fun _ => rfl, fun _ _ => rfl, fun _ => rfl, fun _ => Iff.rfl⟩

theorem Unchanged.of_same (h : Unchanged k₀ k₁)
    (hpgdir : ∀ e, (k₀.envs e).envPgdir = (k.envs e).envPgdir) (hvm : k₀.vm = k.vm) :
    Unchanged k k₁ := by
  refine ⟨fun e => (h.pgdir e).trans (hpgdir e), fun p hp => ?_, fun p => ?_, fun l => ?_⟩
  · rw [h.tables p, hvm]
    cases hp with
    | dir he hd => exact .dir he ((hpgdir _).trans hd)
    | table he hd hi ht => exact .table he ((hpgdir _).trans hd) hi (by rw [hvm]; exact ht)
  · rw [h.ppRef, hvm]
  · rw [h.freeList, hvm]

/-- A page that is taken from the free list and put back. -/
theorem pushFree_popFree {m : PhysMem} {w : Nat → U32} (h : m.pageFreeList = some p) :
    (((m.popFree p).setPage p w).pushFree p).pages = m.pages ∧
      (((m.popFree p).setPage p w).pushFree p).pageFreeList = m.pageFreeList := by
  refine ⟨?_, h.symm⟩
  funext q
  by_cases hq : q = p
  · subst hq
    simp [PhysMem.pushFree, PhysMem.popFree, PhysMem.setLink, PhysMem.setFreeList,
      PhysMem.setPage]
  · simp [PhysMem.pushFree, PhysMem.popFree, PhysMem.setLink, PhysMem.setFreeList,
      PhysMem.setPage]

/-- A page that was given back is as it was before, but for what is in it. -/
theorem GaveBack.vm (h : GaveBack k k') (hlt : ∀ p, k.vm.pageFreeList = some p → p < k.vm.npages)
    (hn : k.vm.npages ≤ 2 ^ 20) :
    k'.envs = k.envs ∧ k'.vm.pages = k.vm.pages ∧ k'.vm.pageFreeList = k.vm.pageFreeList ∧
      ∃ p, k.vm.pageFreeList = some p ∧ ∀ q, q ≠ p → k'.vm.mem q = k.vm.mem q := by
  obtain ⟨pg, m₁, m₂, halloc, hfree, rfl⟩ := h
  obtain ⟨h, -⟩ | ⟨p, hp, hhead, -⟩ := pageAlloc_ret halloc
  · cases h
  obtain rfl := Option.some.inj hp
  rw [pageAlloc_zero hhead (hlt pg hhead) hn] at halloc
  obtain ⟨-, rfl⟩ := Outcome.ret.inj halloc
  rw [pageFree_run] at hfree
  split at hfree
  · cases hfree
  obtain ⟨-, rfl⟩ := Outcome.ret.inj hfree
  obtain ⟨hpages, hlist⟩ := pushFree_popFree (w := fun _ => 0#32) hhead
  refine ⟨rfl, hpages, hlist, pg, hhead, fun q hq => ?_⟩
  exact Function.update_of_ne hq _ _

/-- If the first free page is no page table, giving it back changes nothing. -/
theorem GaveBack.unchanged (h : GaveBack k k')
    (hlt : ∀ p, k.vm.pageFreeList = some p → p < k.vm.npages) (hn : k.vm.npages ≤ 2 ^ 20)
    (htable : ∀ p, k.vm.pageFreeList = some p → ¬ k.IsTable p) : Unchanged k k' := by
  obtain ⟨henvs, hpages, hlist, p, hp, hmem⟩ := h.vm hlt hn
  refine ⟨fun e => by rw [henvs], fun q hq => hmem q ?_, fun q => by rw [hpages], fun l => ?_⟩
  · rintro rfl
    exact htable q hp hq
  · rw [hpages, hlist]

theorem sysPageUnmap_failed {envid va : U32} :
    wp (sysPageUnmap c envid va) (Partial (fun r k' => k' = k ∨ r = 0) (fun _ => True)) k := by
  refine envid2env_bind (fun _ => Or.inl rfl) (fun e _ => ?_)
  refine wp_ite (fun _ => Or.inl rfl) (fun _ => ?_)
  refine thePgdir_bind (fun d _ => ?_)
  rw [wp_get_bind]
  exact partial_bind (onVm_wp (X := fun _ => False) (R := fun _ _ => True)
    (pageRemove_stays _ _ _) (fun _ _ _ => trivial)) (fun _ _ _ => Or.inr rfl)
    (fun _ => False.elim)

theorem sysPageMap_failed {srcenvid srcva dstenvid dstva perm : U32} :
    wp (sysPageMap c srcenvid srcva dstenvid dstva perm)
      (Partial (fun r k' => k' = k ∨ r = 0) (fun _ => True)) k := by
  cases hse : k.envOf c srcenvid true with
  | none =>
      refine envid2env_bind (fun _ => Or.inl rfl) (fun se hse' => ?_)
      rw [hse] at hse'
      cases hse'
  | some se =>
      exact wp_mono (sysPageMap_checked hse) (fun _ _ h => h.imp id And.left)
        (fun _ => id) (fun _ => id)

/-- What a call that fails leaves. -/
theorem Call.run_failed (hno : call.no = .pageAlloc ∨ call.no = .pageMap ∨ call.no = .pageUnmap)
    (hrun : (call.run io c).run k = .ret r k₁) (hr : r < 0) : k₁ = k ∨ GaveBack k k₁ := by
  have hne : r ≠ 0 := Int.ne_of_lt hr
  unfold Call.run at hrun
  rcases hno with hno | hno | hno
  · rw [hno] at hrun
    rcases wp_ret sysPageAlloc_checked hrun with heq | hback | hzero
    · exact Or.inl heq
    · exact Or.inr hback
    · exact absurd hzero.1 hne
  · rw [hno] at hrun
    exact Or.inl ((wp_ret sysPageMap_failed hrun).resolve_right hne)
  · rw [hno] at hrun
    exact Or.inl ((wp_ret sysPageUnmap_failed hrun).resolve_right hne)

/-- Above `UTOP` a directory sees tables of the kernel, and itself. -/
theorem Memory.upper_table {e d i : Nat} (h : Memory managed k) (he : e < nenv)
    (hd : (k.envs e).envPgdir = some d) (hi : userPdes ≤ i) (hlt : i < npdentries)
    (htable : tableOf k.vm.mem d i = some p) : p = d ∨ p ∉ managed := by
  have hdir : d ∈ envDirs k := mem_envDirs.mpr ⟨e, he, hd⟩
  obtain ⟨free, hacc⟩ := h.books.accounted
  have hword := h.upper d i hdir hi
  by_cases huvpt : i = pdx uvpt
  · left
    rw [huvpt] at hword htable
    rw [newDir, Function.update_self, BitVec.or_assoc] at hword
    have hnum : pgnum (k.vm.mem d (pdx uvpt)) = d := by
      rw [hword]
      exact pgnum_page2pa_or (hacc.ledger.lt_two_pow (hacc.spaces.dir_managed d hdir))
        (by decide)
    have hp := (Option.ite_none_right_eq_some.mp htable).2
    exact (Option.some.inj hp).symm.trans hnum
  · right
    rw [newDir, Function.update_of_ne huvpt] at hword
    rw [tableOf, hword] at htable
    exact h.books.kernDir.table i p hi hlt huvpt htable

/-- As long as the books are right, the first free page is no page table. -/
theorem Memory.free_not_table (h : Memory managed k) (hp : k.vm.pageFreeList = some p) :
    ¬ k.IsTable p := by
  obtain ⟨free, hacc⟩ := h.books.accounted
  obtain ⟨rest, rfl⟩ := List.head?_eq_some_iff.mp (hacc.ledger.freeList_eq.symm.trans hp)
  have hzero := hacc.free_unreferenced (List.mem_cons_self (a := p))
  have hnodir := Accounted.not_dir_of_unreferenced hzero
  intro htable
  cases htable with
  | dir he hd => exact hnodir (mem_envDirs.mpr ⟨_, he, hd⟩)
  | @table e d i he hd hi ht =>
      have hdir : d ∈ envDirs k := mem_envDirs.mpr ⟨e, he, hd⟩
      by_cases huser : i < userPdes
      · exact Accounted.not_table_of_unreferenced hzero hdir huser ht
      · rcases h.upper_table he hd (Nat.le_of_not_lt huser) hi ht with rfl | hout
        · exact hnodir hdir
        · exact hout (hacc.free_managed (List.mem_cons_self (a := p)))

end Calls

/-! ## Memory runs out -/

/-- `sys_page_alloc(0, 0, PTE_P|PTE_U|PTE_W)`: there is no page table for address 0. -/
def allocAtZero : Call := ⟨.pageAlloc, 0, 0, 7, 0, 0⟩

/-- Processor 0 with environment 0 enters the kernel for `allocAtZero`. -/
def Kernel.entersForAlloc (k : Kernel) : Kernel :=
  (k.traps 0).saveTf 0 (syscallTf 4 0 0 7 0 0)

/-- The outcome of `allocAtZero`, when it returns. -/
def Kernel.allocsAtZero (k : Kernel) : Option (Int × Kernel) :=
  match (allocAtZero.run ⟨0, 0#32, none⟩ 0).run k.entersForAlloc with
  | .ret r k₁ => some (r, k₁)
  | _ => none

theorem Kernel.allocsAtZero_run {k k₁ : Kernel} {r : Int} (h : k.allocsAtZero = some (r, k₁)) :
    (allocAtZero.run ⟨0, 0#32, none⟩ 0).run k.entersForAlloc = .ret r k₁ := by
  unfold Kernel.allocsAtZero at h
  split at h
  · next hrun =>
      obtain ⟨rfl, rfl⟩ := Prod.mk.inj (Option.some.inj h)
      exact hrun
  · cases h

end Jos

import Jos.EnvTable
import Jos.Ops

/-!
# What the functions do in any state

The facts of this module hold without any assumption on page tables or on
lists: whatever the state is, a function that returns has changed no more than
is said here.  They are what the rest of the development knows of a machine
whose page tables may be in disorder.
-/

namespace Jos

open Programs

/-! ## `kern/pmap.c` -/

section Pmap

variable {m m' : PhysMem} {pgdir : Nat} {va w : U32}

theorem kaddr_stays (pa : U32) : Stays (kaddr pa) :=
  Stays.get.bind (fun _ => Stays.stop.ite (Stays.pure _))

theorem pa2page_stays (pa : U32) : Stays (pa2page pa) :=
  Stays.get.bind (fun _ => Stays.stop.ite (Stays.pure _))

theorem readPte_stays (pte : PtePtr) : Stays (readPte pte) :=
  Stays.get.bind (fun _ => Stays.pure _)

theorem writePte_stays (pte : PtePtr) (w : U32) : Stays (writePte pte w) :=
  Stays.modify _

theorem pageIncref_stays (pp : Nat) : Stays (pageIncref pp) := Stays.modify _

theorem pageAlloc_stays (zero : Bool) : Stays (pageAlloc zero) := by
  refine Stays.get.bind (fun m => ?_)
  cases m.pageFreeList with
  | none => exact Stays.pure _
  | some result =>
      refine (Stays.modify _).bind (fun _ => (Stays.modify _).bind (fun _ => ?_))
      exact ((kaddr_stays _).bind (fun _ =>
        (Stays.modify _).bind (fun _ => Stays.pure _))).ite (Stays.pure _)

theorem pageFree_stays (pp : Nat) : Stays (pageFree pp) :=
  Stays.get.bind (fun _ => Stays.stop.ite (Stays.modify _))

theorem pageDecref_stays (pp : Nat) : Stays (pageDecref pp) :=
  (Stays.modify _).bind (fun _ => Stays.get.bind (fun _ => (pageFree_stays pp).when))

theorem pgdirEntry_stays (pgdir : Nat) (va : U32) : Stays (pgdirEntry pgdir va) :=
  (readPte_stays _).bind (fun _ => (kaddr_stays _).bind (fun _ => Stays.pure _))

theorem pgdirWalk_stays (pgdir : Nat) (va : U32) (create : Bool) :
    Stays (pgdirWalk pgdir va create) := by
  refine (readPte_stays _).bind (fun pde => (pgdirEntry_stays _ _).ite ?_)
  refine Stays.ite ((pageAlloc_stays true).bind (fun r => ?_)) (Stays.pure _)
  cases r with
  | none => exact Stays.pure _
  | some pp =>
      exact (pageIncref_stays pp).bind (fun _ =>
        (writePte_stays _ _).bind (fun _ => pgdirEntry_stays _ _))

theorem pageLookup_stays (pgdir : Nat) (va : U32) : Stays (pageLookup pgdir va) := by
  refine (pgdirWalk_stays _ _ _).bind (fun r => ?_)
  cases r with
  | none => exact Stays.pure _
  | some pte =>
      exact (readPte_stays _).bind (fun _ =>
        ((pa2page_stays _).bind (fun _ => Stays.pure _)).ite (Stays.pure _))

theorem tlbInvalidate_stays (tc : ThisCpu) (pgdir : Nat) (va : U32) :
    Stays (tlbInvalidate tc pgdir va) := (Stays.modify _).when

theorem lcr3_stays (cpu pgdir : Nat) : Stays (lcr3 cpu pgdir) := Stays.modify _

theorem pageRemove_stays (tc : ThisCpu) (pgdir : Nat) (va : U32) :
    Stays (pageRemove tc pgdir va) := by
  refine (pageLookup_stays _ _).bind (fun r => ?_)
  cases r with
  | none => exact Stays.pure _
  | some r =>
      exact (pageDecref_stays _).bind (fun _ =>
        (writePte_stays _ _).bind (fun _ => tlbInvalidate_stays _ _ _))

theorem pageInsert_stays (tc : ThisCpu) (pgdir pp : Nat) (va perm : U32) :
    Stays (pageInsert tc pgdir pp va perm) := by
  refine (pgdirWalk_stays _ _ _).bind (fun r => ?_)
  cases r with
  | none => exact Stays.pure _
  | some pte =>
      exact (pageIncref_stays _).bind (fun _ => (readPte_stays _).bind (fun _ =>
        (pageRemove_stays _ _ _).when.bind (fun _ =>
          (writePte_stays _ _).bind (fun _ => Stays.pure _))))

/-- Looking a page up finds what the page tables say, and changes nothing. -/
theorem pageLookup_ret {r : Option (Nat × PtePtr)}
    (h : (pageLookup pgdir va).run m = .ret r m') :
    m' = m ∧ ∀ pp pte, r = some (pp, pte) →
      entryOf m.mem pgdir (pdx va) (ptx va) = some (m.mem pte.page pte.idx) ∧
      pp = pgnum (m.mem pte.page pte.idx) := by
  cases ht : tableOf m.mem pgdir (pdx va) with
  | none =>
      unfold pageLookup at h
      rw [Prog.run_bind_ret (pgdirWalk_absent ht)] at h
      cases h
      exact ⟨rfl, fun _ _ hr => absurd hr (by simp)⟩
  | some t =>
      by_cases hn : t < m.npages
      · unfold pageLookup at h
        rw [Prog.run_bind_ret (pgdirWalk_present ht hn)] at h
        simp only at h
        rw [Prog.run_bind_ret (readPte_eq _)] at h
        split at h
        · rename_i hp
          by_cases hw : m.npages ≤ pgnum (pteAddr (m.mem t (ptx va)))
          · rw [Prog.run_bind, pa2page, Prog.run_bind_ret (Prog.run_get m),
              if_pos hw] at h
            exact absurd h (by simp)
          · rw [Prog.run_bind_ret (pa2page_eq (Nat.lt_of_not_le hw))] at h
            cases h
            refine ⟨rfl, fun pp pte hr => ?_⟩
            cases hr
            refine ⟨?_, pgnum_pteAddr _⟩
            rw [entryOf_of_table ht, if_pos hp]
        · cases h
          exact ⟨rfl, fun _ _ hr => absurd hr (by simp)⟩
      · -- the table lies beyond physical memory
        obtain ⟨hp, ht⟩ := tableOf_eq_some.mp ht
        have hk : m.npages ≤ pgnum (pteAddr (m.mem pgdir (pdx va))) := by
          rw [pgnum_pteAddr, ht]
          exact Nat.le_of_not_lt hn
        have hstop : (kaddr (pteAddr (m.mem pgdir (pdx va)))).run m = .stop m := by
          unfold kaddr
          rw [Prog.run_bind_ret (Prog.run_get m), if_pos hk]
          rfl
        have hwalk : (pgdirWalk pgdir va false).run m = .stop m := by
          unfold pgdirWalk
          rw [Prog.run_bind_ret (readPte_eq _), if_pos hp]
          unfold pgdirEntry
          rw [Prog.run_bind_ret (readPte_eq _), Prog.run_bind, hstop]
        unfold pageLookup at h
        rw [Prog.run_bind, hwalk] at h
        exact absurd h (by simp)

/-- `page_alloc` that fails changes nothing. -/
theorem pageAlloc_none {zero : Bool}
    (h : (pageAlloc zero).run m = .ret none m') : m' = m := by
  unfold pageAlloc at h
  rw [Prog.run_bind_ret (Prog.run_get m)] at h
  cases hlist : m.pageFreeList with
  | none =>
      simp only [hlist] at h
      cases h
      rfl
  | some result =>
      simp only [hlist] at h
      rw [Prog.run_bind_ret (Prog.run_modify _ _),
        Prog.run_bind_ret (Prog.run_modify _ _)] at h
      split at h
      · rw [Prog.run_bind] at h
        split at h <;> cases h
      · cases h

/-- Walking a directory without creating tables changes nothing. -/
theorem pgdirWalk_ret {r : Option PtePtr}
    (h : (pgdirWalk pgdir va false).run m = .ret r m') : m' = m := by
  cases ht : tableOf m.mem pgdir (pdx va) with
  | none =>
      rw [pgdirWalk_absent ht] at h
      cases h
      rfl
  | some t =>
      obtain ⟨hp, rfl⟩ := tableOf_eq_some.mp ht
      unfold pgdirWalk at h
      rw [Prog.run_bind_ret (readPte_eq _), if_pos hp] at h
      unfold pgdirEntry at h
      rw [Prog.run_bind_ret (readPte_eq _)] at h
      by_cases hn : pgnum (m.mem pgdir (pdx va)) < m.npages
      · rw [Prog.run_bind_ret (kaddr_eq (by rwa [pgnum_pteAddr]))] at h
        cases h
        rfl
      · rw [Prog.run_bind, kaddr, Prog.run_bind_ret (Prog.run_get m),
          if_pos (by rw [pgnum_pteAddr]; exact Nat.le_of_not_lt hn)] at h
        exact absurd h (by simp)

/-- `page_insert` succeeds, or fails for want of memory and without effect. -/
theorem pageInsert_ret {tc : ThisCpu} {pp : Nat} {perm : U32} {r : Int}
    (h : (pageInsert tc pgdir pp va perm).run m = .ret r m') :
    r = 0 ∨ (r = -eNoMem ∧ m' = m) := by
  have hspec : wp (pageInsert tc pgdir pp va perm)
      (Partial (fun r m' => r = 0 ∨ (r = -eNoMem ∧ m' = m)) (fun _ => False)) m := by
    refine stays_bind (pgdirWalk_stays _ _ _) (fun pte m₁ hwalk => ?_)
    cases pte with
    | some pte =>
        refine stays_bind (pageIncref_stays _) (fun _ _ _ => ?_)
        refine stays_bind (readPte_stays _) (fun _ _ _ => ?_)
        refine stays_bind (pageRemove_stays _ _ _).when (fun _ _ _ => ?_)
        exact stays_bind (writePte_stays _ _) (fun _ _ _ => Or.inl rfl)
    | none =>
        -- the walk gives up before it has changed anything
        refine Or.inr ⟨rfl, ?_⟩
        have hwalk' : wp (pgdirWalk pgdir va true)
            (Partial (fun r m' => r = none → m' = m) (fun _ => False)) m := by
          refine stays_bind (readPte_stays _) (fun pde m₂ hread => ?_)
          obtain rfl : m = m₂ := by cases hread; rfl
          split
          · refine stays_bind (readPte_stays _) (fun _ _ _ => ?_)
            exact stays_bind (kaddr_stays _) (fun _ _ _ h => absurd h (by simp))
          · rw [if_pos rfl]
            refine stays_bind (pageAlloc_stays true) (fun pp m₂ halloc => ?_)
            cases pp with
            | none => exact fun _ => pageAlloc_none halloc
            | some pp =>
                refine stays_bind (pageIncref_stays _) (fun _ _ _ => ?_)
                refine stays_bind (writePte_stays _ _) (fun _ _ _ => ?_)
                refine stays_bind (readPte_stays _) (fun _ _ _ => ?_)
                exact stays_bind (kaddr_stays _) (fun _ _ _ h => absurd h (by simp))
        exact wp_ret hwalk' hwalk rfl
  exact wp_ret hspec h

theorem userMemCheckLoop_stays (pgdir : Nat) (va perm stop : U32) (fuel : Nat)
    (p : U32) : Stays (userMemCheckLoop pgdir va perm stop fuel p) := by
  induction fuel generalizing p with
  | zero => exact Stays.stop
  | succ fuel ih =>
      refine Stays.ite ?_ (Stays.pure _)
      refine (pgdirWalk_stays _ _ _).bind (fun _ => Stays.get.bind (fun _ => ?_))
      exact ((Stays.modify _).bind (fun _ => Stays.pure _)).ite (ih _)

theorem userMemCheck_stays (pgdir : Nat) (va len perm : U32) :
    Stays (userMemCheck pgdir va len perm) := by
  unfold userMemCheck
  exact userMemCheckLoop_stays _ _ _ _ _ _

theorem userMemCheckLoop_wp {perm stop p : U32} {fuel : Nat} :
    wp (userMemCheckLoop pgdir va perm stop fuel p)
      (Partial (fun r m' => (r = 0 ∧ m' = m) ∨
        (r = -eFault ∧ ∃ a, m' = { m with userMemCheckAddr := a }))
        (fun _ => False)) m := by
  induction fuel generalizing p with
  | zero => exact trivial
  | succ fuel ih =>
      refine wp_ite (fun _ => ?_) (fun _ => Or.inl ⟨rfl, rfl⟩)
      refine stays_bind (pgdirWalk_stays _ _ _) (fun pte m₁ hwalk => ?_)
      obtain rfl := pgdirWalk_ret hwalk
      rw [wp_get_bind]
      exact wp_ite (fun _ => Or.inr ⟨rfl, _, rfl⟩) (fun _ => ih)

/-- The check notes an address when it fails, and changes nothing else. -/
theorem userMemCheck_ret {len perm : U32} {r : Int}
    (h : (userMemCheck pgdir va len perm).run m = .ret r m') :
    (r = 0 ∧ m' = m) ∨
      (r = -eFault ∧ ∃ a, m' = { m with userMemCheckAddr := a }) := by
  unfold userMemCheck at h
  generalize npdentries * nptentries + 1 = fuel at h
  exact wp_ret userMemCheckLoop_wp h

end Pmap

/-! ## `kern/env.c` -/

/-- The environment that `envid2env` finds. -/
def Kernel.envOf (k : Kernel) (c : Nat) (envid : U32) (checkperm : Bool) :
    Option Nat :=
  match (envid2env c envid checkperm).run k with
  | .ret (.ok e) _ => some e
  | _ => none

section Env

variable {k k' : Kernel} {c cur e : Nat} {envid parentId : U32}
  {checkperm : Bool}

/-- `envid2env` changes nothing, and its only error is `-E_BAD_ENV`. -/
theorem envid2env_wp :
    wp (envid2env c envid checkperm)
      (Partial (fun r k' => k' = k ∧ r = match k.envOf c envid checkperm with
        | some e => .ok e
        | none => .error (-eBadEnv)) (fun _ => False)) k := by
  have h : ∃ o, (envid2env c envid checkperm).run k = o ∧
      (o = .stop k ∨ o = .ret (.error (-eBadEnv)) k ∨ ∃ e, o = .ret (.ok e) k) := by
    refine ⟨_, rfl, ?_⟩
    unfold envid2env
    rw [Prog.run_bind_ret (Prog.run_get k)]
    split
    · cases k.curenv c with
      | none => exact Or.inl rfl
      | some cur => exact Or.inr (Or.inr ⟨_, rfl⟩)
    · dsimp only
      split
      · exact Or.inr (Or.inl rfl)
      · split
        · cases k.curenv c with
          | none => exact Or.inl rfl
          | some cur =>
              dsimp only
              split
              · exact Or.inr (Or.inl rfl)
              · exact Or.inr (Or.inr ⟨_, rfl⟩)
        · exact Or.inr (Or.inr ⟨_, rfl⟩)
  obtain ⟨o, hrun, rfl | rfl | ⟨e, rfl⟩⟩ := h
  · exact wp_of_stop hrun trivial
  · exact wp_of_ret hrun ⟨rfl, by rw [Kernel.envOf, hrun]⟩
  · exact wp_of_ret hrun ⟨rfl, by rw [Kernel.envOf, hrun]⟩

/-- Whom `envid2env` finds: the caller, or a live environment with that id,
which is the caller or its child if permission is checked. -/
theorem envOf_cases (h : k.envOf c envid checkperm = some e) :
    k.curenv c = some e ∨
      (e = envx envid ∧ (k.envs e).envStatus ≠ .free ∧ (k.envs e).envId = envid ∧
        (checkperm = true → ∃ cur, k.curenv c = some cur ∧
          (k.envs e).envParentId = (k.envs cur).envId)) := by
  unfold Kernel.envOf envid2env at h
  rw [Prog.run_bind_ret (Prog.run_get k)] at h
  by_cases h₁ : envid = 0#32
  · rw [if_pos h₁] at h
    cases hcur : k.curenv c with
    | none => simp [hcur] at h
    | some cur =>
        rw [hcur] at h
        exact Or.inl h
  · rw [if_neg h₁] at h
    by_cases h₂ : (k.envs (envx envid)).envStatus = .free ∨
        (k.envs (envx envid)).envId ≠ envid
    · rw [if_pos h₂] at h
      exact absurd h (by simp)
    · rw [if_neg h₂] at h
      have hlive : (k.envs (envx envid)).envStatus ≠ .free := fun hf => h₂ (Or.inl hf)
      have hid : (k.envs (envx envid)).envId = envid :=
        Classical.not_not.mp (fun hf => h₂ (Or.inr hf))
      by_cases h₃ : checkperm = true ∧ k.curenv c ≠ some (envx envid)
      · rw [if_pos h₃] at h
        cases hcur : k.curenv c with
        | none => simp [hcur] at h
        | some cur =>
            rw [hcur] at h
            by_cases h₄ : (k.envs (envx envid)).envParentId ≠ (k.envs cur).envId
            · simp [h₄] at h
            · simp only [if_neg h₄] at h
              obtain rfl : envx envid = e := Option.some.inj h
              exact Or.inr ⟨rfl, hlive, hid, fun _ => ⟨cur, rfl, Classical.not_not.mp h₄⟩⟩
      · rw [if_neg h₃] at h
        obtain rfl : envx envid = e := Option.some.inj h
        by_cases he : k.curenv c = some (envx envid)
        · exact Or.inl he
        · exact Or.inr ⟨rfl, hlive, hid, fun hp => absurd ⟨hp, he⟩ h₃⟩

theorem theCurenv_wp {R : Nat → Kernel → Prop} {X : Kernel → Prop}
    (h : ∀ cur, k.curenv c = some cur → R cur k) :
    wp (theCurenv c) (Partial R X) k := by
  unfold theCurenv
  rw [wp_get_bind]
  cases hcur : k.curenv c with
  | none => exact trivial
  | some cur => exact h cur hcur

theorem thePgdir_wp {R : Nat → Kernel → Prop} {X : Kernel → Prop}
    (h : ∀ d, (k.envs e).envPgdir = some d → R d k) :
    wp (thePgdir e) (Partial R X) k := by
  unfold thePgdir
  rw [wp_get_bind]
  cases hd : (k.envs e).envPgdir with
  | none => exact trivial
  | some d => exact h d hd

theorem onVm_wp {α : Type} {m : Prog PhysMem α} {R : α → Kernel → Prop}
    {X : Kernel → Prop} (hm : Stays m)
    (h : ∀ a vm, m.run k.vm = .ret a vm → R a (k.setVm vm)) :
    wp (onVm m) (Partial R X) k :=
  wp_zoom_of_stays hm h

/-- `env_alloc` fails without effect or takes the head of the free list. -/
theorem envAlloc_wp :
    wp (envAlloc parentId)
      (Partial (fun r k' => (∃ n, r = .error n ∧ k' = k) ∨
        (∃ e p vm, r = .ok e ∧ k.envFreeList = some e ∧
          k' = k.allocated vm e p parentId)) (fun _ => False)) k := by
  unfold envAlloc
  rw [wp_get_bind]
  cases hlist : k.envFreeList with
  | none => exact Or.inl ⟨_, rfl, rfl⟩
  | some e =>
      refine partial_bind (R := fun r k' => (∃ n, r = .error n ∧ k' = k) ∨
          (∃ p vm, r = .ok () ∧ k' = (k.setVm vm).setPgdir e (some p)))
        (X := fun _ => False) ?_ ?_ (fun _ => False.elim)
      · unfold envSetupVm
        refine partial_bind (onVm_wp (R := fun r k' =>
            (r = none → k' = k) ∧ ∃ vm, k' = k.setVm vm) (X := fun _ => False)
          (pageAlloc_stays true) ?_) ?_ (fun _ => False.elim)
        · intro r vm hrun
          refine ⟨?_, vm, rfl⟩
          rintro rfl
          rw [pageAlloc_none hrun]
          rfl
        · rintro r k₁ ⟨hnone, vm, rfl⟩
          cases r with
          | none => exact Or.inl ⟨_, rfl, hnone rfl⟩
          | some p =>
              simp only
              refine partial_bind (onVm_wp (X := fun _ => False)
                (R := fun _ k' => ∃ vm, k' = k.setVm vm) (kaddr_stays _)
                (fun _ vm _ => ⟨vm, rfl⟩)) ?_ (fun _ => False.elim)
              rintro pgdir _ ⟨vm, rfl⟩
              exact Or.inr ⟨pgdir, _, rfl, rfl⟩
      · rintro r k₁ (⟨n, rfl, rfl⟩ | ⟨p, vm, rfl, rfl⟩)
        · exact Or.inl ⟨n, rfl, rfl⟩
        · refine Or.inr ⟨e, p, vm, rfl, rfl, ?_⟩
          simp [Kernel.allocated, Kernel.setPgdir, Kernel.modifyEnv,
            Kernel.setEnv, Kernel.setVm, freshEnv]

theorem envAlloc_ret {e : Nat}
    (h : (envAlloc parentId).run k = .ret (.ok e) k') :
    k.envFreeList = some e ∧ ∃ p vm, k' = k.allocated vm e p parentId := by
  rcases wp_ret envAlloc_wp h with ⟨n, hn, -⟩ | ⟨e', p, vm, he, hlist, hk⟩
  · exact absurd hn (by simp)
  · cases he
    exact ⟨hlist, p, vm, hk⟩

theorem envAlloc_error {n : Int}
    (h : (envAlloc parentId).run k = .ret (.error n) k') : k' = k := by
  rcases wp_ret envAlloc_wp h with ⟨n, -, hk⟩ | ⟨e', p, vm, he, -, -⟩
  · exact hk
  · exact absurd he (by simp)

theorem envFreeTable_stays (tc : ThisCpu) (pgdir pdeno : Nat) :
    Stays (envFreeTable tc pgdir pdeno) := by
  refine (readPte_stays _).bind (fun _ => Stays.when ?_)
  refine (kaddr_stays _).bind (fun _ => Stays.bind ?_ (fun _ =>
    (writePte_stays _ _).bind (fun _ =>
      (pa2page_stays _).bind (fun _ => pageDecref_stays _))))
  exact Stays.forRange (fun _ => (readPte_stays _).bind
    (fun _ => (pageRemove_stays _ _ _).when)) _ _

/-- `env_free` frees the slot of an environment that has a directory. -/
theorem envFree_wp :
    wp (envFree c e)
      (Partial (fun _ k' => ∃ d vm, (k.envs e).envPgdir = some d ∧
        k' = k.freed vm e) (fun _ => False)) k := by
  unfold envFree
  rw [wp_get_bind]
  cases hd : (k.envs e).envPgdir with
  | none => exact trivial
  | some d =>
      simp only
      refine partial_bind (R := fun _ k' => ∃ vm, k' = k.setVm vm)
        (X := fun _ => False) ?_ ?_ (fun _ => False.elim)
      · exact wp_when (fun _ => onVm_wp (lcr3_stays _ _) (fun _ vm _ => ⟨vm, rfl⟩))
          (fun _ => ⟨k.vm, rfl⟩)
      rintro _ _ ⟨vm, rfl⟩
      refine partial_bind (onVm_wp (R := fun _ k' => ∃ vm, k' = k.setVm vm)
        (X := fun _ => False)
        (Stays.forRange (fun i => envFreeTable_stays _ _ i) 0 userPdes)
        (fun _ vm _ => ⟨vm, rfl⟩)) ?_ (fun _ => False.elim)
      rintro _ _ ⟨vm, rfl⟩
      rw [wp_modify_bind]
      refine partial_bind (onVm_wp (R := fun _ k' =>
          ∃ vm, k' = (k.setVm vm).setPgdir e none)
        (X := fun _ => False) (pa2page_stays _)
        (fun _ vm _ => ⟨vm, rfl⟩)) ?_ (fun _ => False.elim)
      rintro pp _ ⟨vm, rfl⟩
      refine partial_bind (onVm_wp (R := fun _ k' =>
          ∃ vm, k' = (k.setVm vm).setPgdir e none)
        (X := fun _ => False) (pageDecref_stays _)
        (fun _ vm _ => ⟨vm, rfl⟩)) ?_ (fun _ => False.elim)
      rintro _ _ ⟨vm, rfl⟩
      refine ⟨d, vm, rfl, ?_⟩
      simp [Kernel.freed, Kernel.setPgdir, Kernel.modifyEnv, Kernel.setEnv,
        Kernel.setVm]

theorem envFree_stays (c e : Nat) : Stays (envFree c e) := fun _ =>
  wp_mono envFree_wp (fun _ _ _ => trivial) (fun _ h => h) (fun _ h => h)

theorem envFree_ret (h : (envFree c e).run k = .ret () k') :
    ∃ d vm, (k.envs e).envPgdir = some d ∧ k' = k.freed vm e :=
  wp_ret envFree_wp h

end Env

/-! ## Loads and stores -/

section Access

variable {k k' : Kernel} {c : Nat} {va : U32}

theorem peekByte_stays (c : Nat) (va : U32) : Stays (peekByte c va) := by
  refine Stays.get.bind (fun k => ?_)
  cases k.vm.kernelPage (k.vm.cr3 c) va false with
  | none => exact Stays.stop
  | some p => exact Stays.pure _

theorem pokeByte_stays (c : Nat) (va : U32) (b : U8) :
    Stays (pokeByte c va b) := by
  refine Stays.get.bind (fun k => ?_)
  cases k.vm.kernelPage (k.vm.cr3 c) va true with
  | none => exact Stays.stop
  | some p => exact Stays.modify _

theorem loadByte_stays (c : Nat) (va : U32) : Stays (loadByte c va) :=
  (Stays.modify _).bind (fun _ => peekByte_stays c va)

theorem storeByte_stays (c : Nat) (va : U32) (b : U8) :
    Stays (storeByte c va b) :=
  (Stays.modify _).bind (fun _ => pokeByte_stays c va b)

theorem loadBytes_stays (c : Nat) (va : U32) (n : Nat) :
    Stays (loadBytes c va n) := by
  induction n generalizing va with
  | zero => exact Stays.pure _
  | succ n ih =>
      exact (loadByte_stays c va).bind (fun _ =>
        (ih (va + 1#32)).bind (fun _ => Stays.pure _))

theorem storeBytes_stays (c : Nat) (va : U32) (bs : List U8) :
    Stays (storeBytes c va bs) := by
  induction bs generalizing va with
  | nil => exact Stays.pure _
  | cons b bs ih => exact (storeByte_stays c va b).bind (fun _ => ih (va + 1#32))

theorem loadU32_stays (c : Nat) (va : U32) : Stays (loadU32 c va) :=
  (loadBytes_stays c va 4).bind (fun _ => Stays.pure _)

theorem patchTf_stays (c : Nat) (tf : U32) : Stays (patchTf c tf) :=
  (storeBytes_stays c _ _).bind (fun _ => (loadU32_stays c _).bind (fun _ =>
    (storeBytes_stays c _ _).bind (fun _ => storeBytes_stays c _ _)))

theorem e1000Receive_stays (c : Nat) (addr len : U32) :
    Stays (e1000Receive c addr len) := by
  refine Stays.get.bind (fun k => (Stays.pure _).ite ((Stays.pure _).ite ?_))
  refine (storeBytes_stays c _ _).bind (fun _ =>
    (loadU32_stays c _).bind (fun n => ?_))
  exact (Stays.forRange (fun i => storeByte_stays c _ _) _ _).bind (fun _ =>
    (Stays.modify _).bind (fun _ => Stays.pure _))

/-- A load changes the trace only. -/
theorem loadByte_wp :
    wp (loadByte c va) (Partial (fun _ k' => Quiet k k') (fun _ => False)) k := by
  unfold loadByte peekByte
  rw [wp_modify_bind, wp_get_bind]
  cases (k.log (.access va false)).vm.kernelPage
    ((k.log (.access va false)).vm.cr3 c) va false with
  | none => exact trivial
  | some p => exact quiet_log _

theorem loadBytes_wp {n : Nat} :
    wp (loadBytes c va n)
      (Partial (fun _ k' => Quiet k k') (fun _ => False)) k := by
  induction n generalizing va k with
  | zero => exact Quiet.refl k
  | succ n ih =>
      refine partial_bind loadByte_wp (fun b k₁ h₁ => ?_) (fun _ h => h)
      exact partial_bind ih (fun bs k₂ h₂ => h₁.trans h₂) (fun _ h => h)

theorem loadU32_wp :
    wp (loadU32 c va)
      (Partial (fun _ k' => Quiet k k') (fun _ => False)) k :=
  partial_bind loadBytes_wp (fun _ _ h => h) (fun _ h => h)

theorem storeByte_wp {b : U8} :
    wp (storeByte c va b)
      (Partial (fun _ k' => SameProcs k k') (fun _ => False)) k := by
  unfold storeByte pokeByte
  rw [wp_modify_bind, wp_get_bind]
  cases (k.log (.access va true)).vm.kernelPage
    ((k.log (.access va true)).vm.cr3 c) va true with
  | none => exact trivial
  | some p => exact (quiet_log _).procs.trans (sameProcs_setVm _)

theorem storeBytes_wp {bs : List U8} :
    wp (storeBytes c va bs)
      (Partial (fun _ k' => SameProcs k k') (fun _ => False)) k := by
  induction bs generalizing va k with
  | nil => exact SameProcs.refl k
  | cons b bs ih =>
      refine partial_bind storeByte_wp (fun _ k₁ h₁ => ?_) (fun _ h => h)
      exact wp_mono ih (fun _ _ h₂ => h₁.trans h₂) (fun _ h => h) (fun _ h => h)

theorem patchTf_wp {tf : U32} :
    wp (patchTf c tf)
      (Partial (fun _ k' => SameProcs k k') (fun _ => False)) k := by
  refine partial_bind storeBytes_wp (fun _ k₁ h₁ => ?_) (fun _ h => h)
  refine partial_bind loadU32_wp (fun eflags k₂ h₂ => ?_) (fun _ h => h)
  refine partial_bind storeBytes_wp (fun _ k₃ h₃ => ?_) (fun _ h => h)
  exact wp_mono storeBytes_wp
    (fun _ _ h₄ => ((h₁.trans h₂.procs).trans h₃).trans h₄)
    (fun _ h => h) (fun _ h => h)

theorem e1000Receive_wp {addr len : U32} :
    wp (e1000Receive c addr len)
      (Partial (fun _ k' => SameProcs k k') (fun _ => False)) k := by
  unfold e1000Receive
  rw [wp_get_bind]
  refine wp_ite (fun _ => SameProcs.refl k) (fun _ => ?_)
  refine wp_ite (fun _ => SameProcs.refl k) (fun _ => ?_)
  refine partial_bind storeBytes_wp (fun _ k₁ h₁ => ?_) (fun _ h => h)
  refine partial_bind loadU32_wp (fun n k₂ h₂ => ?_) (fun _ h => h)
  refine partial_bind (R := fun _ k' => SameProcs k k') (X := fun _ => False)
    ?_ (fun _ k₃ h₃ => h₃.trans (quiet_modifyNic _).procs) (fun _ h => h.elim)
  refine wp_forRange (fun _ k' => SameProcs k k') 0 n.toNat
    (fun i k₃ _ _ h₃ => ?_) (fun _ h => h) (h₁.trans h₂.procs)
  exact wp_mono storeByte_wp (fun _ _ h₄ => h₃.trans h₄)
    (fun _ h => h) (fun _ h => h)

/-- No operation on memory touches environments or processors. -/
theorem VmOp.Does.sameProcs {op : VmOp} (h : op.Does c k k') :
    SameProcs k k' := by
  cases op with
  | newPage e va perm =>
      obtain ⟨d, pg, m₁, m₂, -, -, ⟨-, rfl⟩ | ⟨r, m₃, -, -, -, rfl⟩⟩ := h
      · exact sameProcs_setVm _
      · exact sameProcs_setVm _
  | share src srcva e va perm =>
      obtain ⟨ds, d, w, r, m, -, -, -, -, rfl⟩ := h
      exact sameProcs_setVm _
  | unmap e va =>
      obtain ⟨d, m, -, -, rfl⟩ := h
      exact sameProcs_setVm _
  | patch tf => exact wp_ret patchTf_wp h
  | pushFrame utr words => exact wp_ret storeBytes_wp h
  | receive addr len =>
      obtain ⟨r, h⟩ := h
      exact wp_ret e1000Receive_wp h

theorem VmServed.sameProcs {asked : VmOp → Prop}
    (h : VmServed c asked k k') : SameProcs k k' := by
  cases h with
  | quiet h => exact h.procs
  | op op k₁ _ h₁ h₂ => exact h₁.sameProcs.trans h₂.procs

/-- Two states with the same processors. -/
structure SameCpus (k k' : Kernel) : Prop where
  cpus : k'.cpus = k.cpus
  ncpu : k'.ncpu = k.ncpu
  kernelLock : k'.kernelLock = k.kernelLock

theorem SameProcs.sameCpus (h : SameProcs k k') : SameCpus k k' :=
  ⟨h.cpus, h.ncpu, h.kernelLock⟩

theorem SameCpus.trans {k'' : Kernel} (h : SameCpus k k')
    (h' : SameCpus k' k'') : SameCpus k k'' :=
  ⟨h'.cpus.trans h.cpus, h'.ncpu.trans h.ncpu,
    h'.kernelLock.trans h.kernelLock⟩

theorem SameCpus.curenv (h : SameCpus k k') : k'.curenv c = k.curenv c := by
  unfold Kernel.curenv
  rw [h.cpus]

/-- No operation on the table touches processors. -/
theorem EnvOp.Does.sameCpus {cur : Nat} {op : EnvOp}
    (h : op.Does c cur k k') : SameCpus k k' := by
  cases op with
  | setTf e tf =>
      obtain rfl := h
      exact ⟨rfl, rfl, rfl⟩
  | setUpcall e func =>
      obtain rfl := h
      exact ⟨rfl, rfl, rfl⟩
  | setStatus e st =>
      obtain rfl := h
      exact ⟨rfl, rfl, rfl⟩
  | fork e =>
      obtain ⟨k₁, hrun, rfl⟩ := h
      obtain ⟨-, p, vm, rfl⟩ := envAlloc_ret hrun
      exact ⟨rfl, rfl, rfl⟩
  | kill e =>
      obtain ⟨-, ⟨-, rfl⟩ | ⟨-, hrun⟩⟩ := h
      · exact ⟨rfl, rfl, rfl⟩
      · obtain ⟨d, vm, -, rfl⟩ := envFree_ret hrun
        exact ⟨rfl, rfl, rfl⟩
  | deliver rcv value perm =>
      obtain rfl := h
      exact ⟨rfl, rfl, rfl⟩

theorem Served.sameCpus {cur : Nat} {vmAsked : VmOp → Prop}
    {envAsked : EnvOp → Prop} (h : Served c cur vmAsked envAsked k k') :
    SameCpus k k' := by
  cases h with
  | memory h => exact h.sameProcs.sameCpus
  | envs op k₁ h₁ _ h₂ => exact h₁.sameProcs.sameCpus.trans h₂.sameCpus

end Access

end Jos

import Jos.Sound

/-!
# What system calls check of a permission word

`sys_page_map` and `sys_ipc_try_send` give write access to a page only to a
caller that has it, and `sys_page_alloc` and `sys_page_map` want `PTE_U` and
`PTE_P`.  A call that fails maps nothing, so a step changes an entry below
`UTOP` only in a call that has passed these checks.
-/

namespace Jos

open Programs

/-- What is known of an operation that maps a page when the call returns `r`:
the call has succeeded, and checked the permission word. -/
def VmOp.Checked (k : Kernel) (r : Int) : VmOp → Prop
  | newPage _ _ perm => r = 0 ∧ perm &&& permFlags = permFlags
  | share src srcva _ _ perm => r = 0 ∧
      ∀ ds w, (k.envs src).envPgdir = some ds →
        entryOf k.vm.mem ds (pdx srcva) (ptx srcva) = some w →
        HasFlag perm pteW → HasFlag w pteW
  | _ => True

/-- A page was allocated and freed again. -/
def GaveBack (k k' : Kernel) : Prop :=
  ∃ pg m₁ m₂, (pageAlloc true).run k.vm = .ret (some pg) m₁ ∧
    (pageFree pg).run m₁ = .ret () m₂ ∧ k' = k.setVm m₂

/-- A checked operation of a system call may set an entry of environment
`e`. -/
def Event.SetsChecked (k : Kernel) (ev : Event) (e i j : Nat)
    (new : Option U32) : Prop :=
  ∃ k₀ k₁ c call r op d, ev.Serves k k₀ c call ∧
    (call.run ev.inputs c).run k₀ = .ret r k₁ ∧ call.AsksVm k₀ c op ∧
    op.Checked k₀ r ∧ (k₀.envs e).envPgdir = some d ∧ op.Sets k₀ d i j new

section Checks

variable {managed : Set Nat} {k k' k₁ : Kernel} {ev : Event} {call : Call}
  {io : Inputs} {c cur e i j : Nat}

theorem sysPageAlloc_checked {envid va perm : U32} :
    wp (sysPageAlloc c envid va perm)
      (Partial (fun r k' => k' = k ∨ GaveBack k k' ∨
        (r = 0 ∧ perm &&& permFlags = permFlags)) (fun _ => True)) k := by
  refine envid2env_bind (fun _ => Or.inl rfl) (fun e he => ?_)
  refine wp_ite (fun _ => Or.inl rfl) (fun hva => ?_)
  refine wp_ite (fun _ => Or.inl rfl) (fun hperm => ?_)
  refine partial_bind (onVm_wp (X := fun _ => False)
    (R := fun r k' => ∃ m, (pageAlloc true).run k.vm = .ret r m ∧
      k' = k.setVm m) (pageAlloc_stays true) (fun r m hrun => ⟨m, hrun, rfl⟩))
    ?_ (fun _ => False.elim)
  rintro r _ ⟨m₁, halloc, rfl⟩
  cases r with
  | none =>
      rw [pageAlloc_none halloc]
      exact Or.inl rfl
  | some pg =>
      refine partial_bind (pageInsertEnv_wp (X := fun _ => False)) ?_
        (fun _ => False.elim)
      rintro r _ ⟨d, m₂, hd, hins, rfl⟩
      refine wp_ite (fun hr => ?_) (fun _ => ?_)
      · obtain rfl : m₂ = m₁ := by
          rcases pageInsert_ret hins with h0 | ⟨-, hm⟩
          · exact absurd h0 hr
          · exact hm
        refine partial_bind (onVm_wp (X := fun _ => False)
          (R := fun _ k' => GaveBack k k') (pageFree_stays pg)
          (fun _ m₃ hfree => ⟨pg, m₂, m₃, halloc, hfree, rfl⟩))
          (fun _ _ h => Or.inr (Or.inl h)) (fun _ => False.elim)
      · exact Or.inr (Or.inr ⟨rfl, Classical.not_not.mp hperm⟩)

/-- The end of a call that shares a page. -/
theorem pageInsertEnv_checked {e pp : Nat} {va perm : U32} {P : Prop} (h : P) :
    wp (pageInsertEnv c e pp va perm)
      (Partial (fun r k' => k' = k ∨ (r = 0 ∧ P)) (fun _ => True)) k := by
  refine wp_mono (pageInsertEnv_wp (X := fun _ => False)) ?_
    (fun _ => False.elim) (fun _ h => h)
  rintro r _ ⟨d, m, -, hins, rfl⟩
  rcases pageInsert_ret hins with rfl | ⟨-, rfl⟩
  · exact Or.inr ⟨rfl, h⟩
  · exact Or.inl rfl

theorem sysPageMap_checked {srcenvid srcva dstenvid dstva perm : U32} {se : Nat}
    (hse : k.envOf c srcenvid true = some se) :
    wp (sysPageMap c srcenvid srcva dstenvid dstva perm)
      (Partial (fun r k' => k' = k ∨ (r = 0 ∧
        ∀ ds w, (k.envs se).envPgdir = some ds →
          entryOf k.vm.mem ds (pdx srcva) (ptx srcva) = some w →
          HasFlag perm pteW → HasFlag w pteW)) (fun _ => True)) k := by
  refine envid2env_bind (fun _ => Or.inl rfl) (fun se' hse' => ?_)
  obtain rfl := Option.some.inj (hse.symm.trans hse')
  refine envid2env_bind (fun _ => Or.inl rfl) (fun de hde => ?_)
  refine wp_ite (fun _ => Or.inl rfl) (fun hva => ?_)
  refine thePgdir_bind (fun ds hds => ?_)
  refine partial_bind (lookup_wp (X := fun _ => False)) ?_ (fun _ => False.elim)
  rintro r k₁ ⟨rfl, hfound⟩
  cases r with
  | none => exact Or.inl rfl
  | some r =>
      obtain ⟨pg, pte⟩ := r
      obtain ⟨hentry, rfl⟩ := hfound pg pte rfl
      refine wp_ite (fun _ => Or.inl rfl) (fun _ => ?_)
      refine partial_bind (onVm_wp (X := fun _ => False)
        (R := fun w k' => w = k.vm.mem pte.page pte.idx ∧ k = k')
        (readPte_stays pte) ?_) ?_ (fun _ => False.elim)
      · intro w m hrun
        cases hrun
        exact ⟨rfl, rfl⟩
      rintro w k₁ ⟨rfl, rfl⟩
      refine wp_ite (fun _ => Or.inl rfl) (fun hw => pageInsertEnv_checked ?_)
      intro ds' w' hds' hw' hperm
      obtain rfl := Option.some.inj (hds.symm.trans hds')
      obtain rfl := Option.some.inj (hentry.symm.trans hw')
      exact Classical.byContradiction (fun hnot => hw ⟨hnot, hperm⟩)

theorem sysIpcTrySend_checked {envid value srcva perm : U32}
    (hcur : k.curenv c = some cur) (hsrc : srcva < utop) :
    wp (sysIpcTrySend io c envid value srcva perm)
      (Partial (fun r k' => k' = k ∨ (r = 0 ∧
        ∀ ds w, (k.envs cur).envPgdir = some ds →
          entryOf k.vm.mem ds (pdx srcva) (ptx srcva) = some w →
          HasFlag perm pteW → HasFlag w pteW)) (fun _ => True)) k := by
  unfold sysIpcTrySend
  refine envid2env_bind (fun _ => Or.inl rfl) (fun rcv hrcv => ?_)
  rw [wp_get_bind]
  refine wp_ite (fun _ => Or.inl rfl) (fun hrecv => ?_)
  refine theCurenv_bind hcur (wp_ite (fun _ => ?_) (fun h => absurd hsrc h))
  refine thePgdir_bind (fun ds hds => ?_)
  refine partial_bind (lookup_wp (X := fun _ => False)) ?_ (fun _ => False.elim)
  rintro found k₁ ⟨rfl, hfound⟩
  refine wp_ite (fun _ => Or.inl rfl) (fun _ => ?_)
  split
  · exact trivial
  rename_i pte hpte
  refine wp_ite (fun _ => Or.inl rfl) (fun _ => ?_)
  cases found with
  | none => exact Or.inl rfl
  | some found =>
      obtain ⟨pg, ptr⟩ := found
      obtain ⟨hentry, rfl⟩ := hfound pg ptr rfl
      obtain rfl : k.vm.mem ptr.page ptr.idx = pte := Option.some.inj hpte
      refine wp_ite (fun _ => Or.inl rfl) (fun hw => ?_)
      have hchecked : ∀ ds w, (k.envs cur).envPgdir = some ds →
          entryOf k.vm.mem ds (pdx srcva) (ptx srcva) = some w →
          HasFlag perm pteW → HasFlag w pteW := by
        intro ds' w' hds' hw' hperm
        obtain rfl := Option.some.inj (hds.symm.trans hds')
        obtain rfl := Option.some.inj (hentry.symm.trans hw')
        exact Classical.byContradiction (fun hnot => hw ⟨hperm, hnot⟩)
      refine wp_ite (fun _ => ?_) (fun _ => Or.inr ⟨rfl, hchecked⟩)
      refine partial_bind (pageInsertEnv_checked hchecked) (fun r k₁ h₁ => ?_)
        (fun _ _ => trivial)
      refine wp_ite (fun hr => ?_) (fun _ => Or.inr ⟨rfl, hchecked⟩)
      exact Or.inl (h₁.resolve_right (fun h => hr h.1))

/-- A system call that returns has changed no mapping, or has checked the
permission word. -/
theorem Call.run_checked {r : Int}
    (hrun : (call.run io c).run k = .ret r k₁) :
    k₁ = k ∨ GaveBack k k₁ ∨ ∀ op, call.AsksVm k c op → op.Checked k r := by
  unfold Call.run at hrun
  refine Classical.or_iff_not_imp_left.mpr (fun hk =>
    Classical.or_iff_not_imp_left.mpr (fun hback op hop => ?_))
  cases hop with
  | pageAlloc hno _ _ =>
      rw [hno] at hrun
      exact ((wp_ret sysPageAlloc_checked hrun).resolve_left hk).resolve_left hback
  | pageMap hno hse _ _ _ =>
      rw [hno] at hrun
      exact (wp_ret (sysPageMap_checked hse) hrun).resolve_left hk
  | pageUnmap _ _ _ => trivial
  | ipcTrySend hno _ _ hcur' hsrc _ =>
      rw [hno] at hrun
      exact (wp_ret (sysIpcTrySend_checked hcur' hsrc) hrun).resolve_left hk
  | setTrapframe _ _ => trivial
  | pktRecv _ => trivial

/-- A clean step changes an entry below `UTOP` by a checked operation of its
system call, or because the environment goes. -/
theorem Event.entry_cases (h : Sound managed k) (hclean : ev.Clean k)
    (hstep : ev.step k = some k') (he : e < nenv) (hi : i < userPdes)
    (hj : j < nptentries) :
    k'.entry e i j = k.entry e i j ∨ ev.SetsChecked k e i j (k'.entry e i j) ∨
      k'.entry e i j = none := by
  rcases (ev.maintained h hclean hstep).entries e i j he hi hj with
    heq | ⟨k₀, c, call, hserves, op, d, hop, hd, hset⟩ | ⟨hnone, -, -⟩
  · exact Or.inl heq
  · obtain ⟨cur, hcur, hend⟩ := hserves.runs
      (fun c hp => (h.order.procs.halted c).mpr hp) hstep
    obtain ⟨hsame, hserving⟩ := h.serving hserves hcur
    -- entries stay when the call returns without having mapped anything
    have hkeeps : ∀ k₁ r, Maintained managed (fun _ _ _ _ => False) k₀ k₁ →
        SameProcs k₀ k₁ → Resumes c (k₁.result cur r) k' →
        Maintained managed (fun _ _ _ _ => False) k k' := by
      intro k₁ r h₁ hp hr
      have hresult : SamePages k₁ (k₁.result cur r) :=
        samePages_edit rfl rfl rfl Iff.rfl
      have h₂ := h₁.trans_same hresult (h₁.loaded.edit rfl)
      obtain ⟨hpages, hloaded⟩ := hr.samePages
        ((hserving.order.sameProcs hp).edit rfl rfl rfl rfl)
        ((hserving.inKernel.congr hp.sameCpus).congr ⟨rfl, rfl, rfl⟩) h₂.loaded
      exact hsame.trans_maintained (h₂.trans_same hpages hloaded)
    have hleft : Maintained managed (fun _ _ _ _ => False) k k' →
        k'.entry e i j = k.entry e i j ∨
          ev.SetsChecked k e i j (k'.entry e i j) ∨ k'.entry e i j = none := by
      intro h₁
      rcases h₁.entries e i j he hi hj with heq | hno | ⟨hnone, -, -⟩
      · exact Or.inl heq
      · exact hno.elim
      · exact Or.inr (Or.inr hnone)
    rcases hend with ⟨r, k₁, hrun, -, hr⟩ | ⟨-, hl⟩
    · rcases Call.run_checked hrun with rfl | hback | hchecked
      · exact hleft (hkeeps k₁ r ((SamePages.refl k₁).maintained hserving.memory
          hserving.loaded) (.refl k₁) hr)
      · obtain ⟨pg, m₁, m₂, halloc, hfree, rfl⟩ := hback
        have haltered : Altered managed (fun _ _ _ _ => False) k₀ (k₀.setVm m₂) :=
          giveBack_altered hserving.memory halloc hfree
        exact hleft (hkeeps _ r (haltered.maintained hserving.loaded
          (fun _ _ _ _ _ _ => False.elim)) haltered.procs hr)
      · exact Or.inr (Or.inl ⟨k₀, k₁, c, call, r, op, d, hserves, hrun, hop,
          hchecked op hop, hd, hset⟩)
    · exact hleft (hsame.trans_maintained (hl.maintained hserving.memory
        hserving.loaded hserving.order hserving.inKernel hserving.curenv))
  · exact Or.inr (Or.inr hnone)

end Checks

end Jos

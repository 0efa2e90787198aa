import Jos.Lifetime

/-!
# The authority of an environment

`envid2env` lets an environment act on itself and its children only, and
`sys_ipc_try_send` on anyone who waits for a message, but only by delivering
one.  As long as memory is in order, this is all the authority that an
environment has.
-/

namespace Jos

open Programs

/-- A system call has left environment `e` alone; it may have been
dispatched. -/
structure Untouched (k k' : Kernel) (e : Nat) : Prop where
  entries : ∀ i j, i < userPdes → j < nptentries →
    k'.entry e i j = k.entry e i j
  tf : (k'.envs e).envTf = (k.envs e).envTf
  upcall : (k'.envs e).envPgfaultUpcall = (k.envs e).envPgfaultUpcall
  parentId : (k'.envs e).envParentId = (k.envs e).envParentId
  id : (k'.envs e).envId = (k.envs e).envId
  status : (k'.envs e).envStatus = (k.envs e).envStatus ∨
    ((k.envs e).envStatus = .runnable ∧ (k'.envs e).envStatus = .running)

/-- A message was delivered to environment `e`, and nothing else done to it. -/
structure DeliveredTo (k k' : Kernel) (e : Nat) : Prop where
  entries : ∀ i j, i < userPdes → j < nptentries →
    ¬ (i = pdx (k.envs e).envIpcDstva ∧ j = ptx (k.envs e).envIpcDstva) →
    k'.entry e i j = k.entry e i j
  tf : (k'.envs e).envTf = (k.envs e).envTf.setEax 0#32
  upcall : (k'.envs e).envPgfaultUpcall = (k.envs e).envPgfaultUpcall
  parentId : (k'.envs e).envParentId = (k.envs e).envParentId
  id : (k'.envs e).envId = (k.envs e).envId

/-- The call is a `sys_ipc_try_send` to `e` that succeeds. -/
def Call.SendsTo (k : Kernel) (io : Inputs) (c : Nat) (call : Call) (e : Nat) :
    Prop :=
  call.no = .ipcTrySend ∧ k.envOf c call.a1 false = some e ∧
    ∃ k₁, (call.run io c).run k = .ret 0 k₁

/-- The system calls of a step keep to the authority of the caller. -/
structure Event.Confined (k : Kernel) (ev : Event) (k' : Kernel) : Prop where
  strangers : ∀ k₀ c cur call e, ev.Serves k k₀ c call →
    k.curenv c = some cur → k.Live e → e ≠ cur →
    (k.envs e).envParentId ≠ (k.envs cur).envId →
    ¬ call.SendsTo k₀ ev.inputs c e → Untouched k k' e
  target : ∀ k₀ c cur call e, ev.Serves k k₀ c call →
    k.curenv c = some cur → k.Live e → e ≠ cur →
    call.SendsTo k₀ ev.inputs c e → DeliveredTo k k' e

section Serving

variable {managed : Set Nat} {k k' k₀ k₁ : Kernel} {ev : Event} {c cur e i j : Nat}
  {call : Call}

/-- The environment that a system call with permission check is for is the
caller or its child. -/
theorem envOf_own {envid : U32} (hcur : k.curenv c = some cur)
    (he : k.envOf c envid true = some e) :
    e = cur ∨ (k.envs e).envParentId = (k.envs cur).envId := by
  rcases envOf_cases he with hself | ⟨-, -, -, hparent⟩
  · exact Or.inl (Option.some.inj (hself.symm.trans hcur))
  · obtain ⟨cur', hcur', hparent⟩ := hparent rfl
    obtain rfl := Option.some.inj (hcur'.symm.trans hcur)
    exact Or.inr hparent

/-- An operation on the table other than a delivery is for the caller, for its
child, or for a free slot. -/
theorem Call.AsksEnv.own {op : EnvOp} (h : call.AsksEnv k c op)
    (ho : Orderly k) (hcur : k.curenv c = some cur)
    (hno : call.no ≠ .ipcTrySend) :
    op.target = cur ∨
      (k.envs op.target).envParentId = (k.envs cur).envId ∨
      (k.envs op.target).envStatus = .free := by
  cases h with
  | envDestroy _ he => exact (envOf_own hcur he).imp_right Or.inl
  | exofork _ hlist =>
      obtain ⟨-, hfree, -, -⟩ := ho.slots.head_free hlist
      exact Or.inr (Or.inr hfree)
  | setStatus _ he _ => exact (envOf_own hcur he).imp_right Or.inl
  | setTrapframe _ he => exact (envOf_own hcur he).imp_right Or.inl
  | setUpcall _ he => exact (envOf_own hcur he).imp_right Or.inl
  | ipcTrySend hsend _ _ => exact absurd hsend hno

/-- The environment whose entry an operation may set. -/
def VmOp.owner : VmOp → Option Nat
  | newPage e _ _ => some e
  | share _ _ e _ _ => some e
  | unmap e _ => some e
  | _ => none

theorem VmOp.Sets.owner {op : VmOp} {d : Nat} {new : Option U32}
    (h : op.Sets k d i j new) :
    ∃ e, op.owner = some e ∧ (k.envs e).envPgdir = some d := by
  cases op with
  | newPage e va perm => exact ⟨e, rfl, h.1⟩
  | share src srcva e va perm => exact ⟨e, rfl, h.1⟩
  | unmap e va => exact ⟨e, rfl, h.1⟩
  | patch tf => exact h.elim
  | pushFrame utr words => exact h.elim
  | receive addr len => exact h.elim

theorem Call.AsksVm.own {op : VmOp} (h : call.AsksVm k c op)
    (hcur : k.curenv c = some cur) (hno : call.no ≠ .ipcTrySend)
    (howner : op.owner = some e) :
    e = cur ∨ (k.envs e).envParentId = (k.envs cur).envId := by
  cases h with
  | pageAlloc _ he _ =>
      obtain rfl := Option.some.inj howner
      exact envOf_own hcur he
  | pageMap _ _ hde _ _ =>
      obtain rfl := Option.some.inj howner
      exact envOf_own hcur hde
  | pageUnmap _ he _ =>
      obtain rfl := Option.some.inj howner
      exact envOf_own hcur he
  | ipcTrySend hsend _ _ _ _ _ => exact absurd hsend hno
  | setTrapframe _ _ => exact absurd howner (by simp [VmOp.owner])
  | pktRecv _ => exact absurd howner (by simp [VmOp.owner])

/-- What the scheduler changes is left open in `Untouched`. -/
theorem Untouched.of_scheduled
    (hentries : ∀ i j, i < userPdes → j < nptentries →
      k'.entry e i j = k.entry e i j)
    (h : Scheduled (k.envs e) (k'.envs e)) : Untouched k k' e := by
  refine ⟨hentries, ?_, ?_, ?_, ?_, h.status⟩
  all_goals rw [h.same]

/-- A system call that sends no message leaves strangers alone. -/
theorem confined_quiet (h : Sound managed k) (hclean : ev.Clean k)
    (hserves : ev.Serves k k₀ c call) (hcur : k.curenv c = some cur)
    (hstep : ev.step k = some k') (hno : call.no ≠ .ipcTrySend)
    (hlive : k.Live e) (he : e ≠ cur)
    (hparent : (k.envs e).envParentId ≠ (k.envs cur).envId) :
    Untouched k k' e := by
  obtain ⟨hsame, hserving⟩ := h.serving hserves hcur
  -- the caller's frame is saved, and all else is the same
  have hfields : ∀ e', (k₀.envs e').envParentId = (k.envs e').envParentId ∧
      (k₀.envs e').envId = (k.envs e').envId ∧
      (k₀.envs e').envStatus = (k.envs e').envStatus := by
    intro e'
    obtain ⟨tf, heq, -⟩ := hserves.envs e'
    rw [heq]
    exact ⟨rfl, rfl, rfl⟩
  have hstranger : ¬ (e = cur ∨
      (k₀.envs e).envParentId = (k₀.envs cur).envId) := by
    rw [(hfields e).1, (hfields cur).2.1]
    exact fun hh => hh.elim he hparent
  have hothers : ∀ c₀, ev.cpu = some c₀ → k.curenv c₀ ≠ some e := by
    intro c₀ hc₀ hcur₀
    obtain rfl := Option.some.inj (hc₀.symm.trans hserves.cpu)
    exact he (Option.some.inj (hcur₀.symm.trans hcur))
  have hsched : Scheduled (k.envs e) (k'.envs e) := by
    obtain ⟨v, rfl | hedit, hs⟩ := ev.frame h.order hstep hothers
    · exact hs
    · obtain ⟨k₂, c₂, cur₂, call₂, hserves₂, hcur₂, op, k₃, k₄, hop, rfl, -⟩ :=
        hedit
      obtain ⟨rfl, rfl, rfl⟩ := hserves.unique hserves₂
      rcases hop.own hserving.order hserving.curenv hno with
        hself | hchild | hfree
      · exact absurd (Or.inl hself) hstranger
      · exact absurd (Or.inr hchild) hstranger
      · rw [(hfields _).2.2] at hfree
        exact absurd hfree hlive.2
  refine .of_scheduled (fun i j hi hj => ?_) hsched
  rcases (ev.maintained h hclean hstep).entries e i j hlive.1 hi hj with
    heq | hset | ⟨-, hfree, -⟩
  · exact heq
  · obtain ⟨k₂, c₂, call₂, hserves₂, op, d, hop, hd, hset⟩ := hset
    obtain ⟨rfl, rfl, rfl⟩ := hserves.unique hserves₂
    obtain ⟨e', howner, hd'⟩ := hset.owner
    have hown := hop.own hserving.curenv hno howner
    have hlive' : e' < nenv := by
      have hvalid := hop.valid hserving.order hserving.inKernel
      cases op with
      | newPage _ _ _ =>
          obtain rfl := Option.some.inj howner
          exact hvalid.1.1
      | share _ _ _ _ _ =>
          obtain rfl := Option.some.inj howner
          exact hvalid.2.2.1.1
      | unmap _ _ =>
          obtain rfl := Option.some.inj howner
          exact hvalid.1.1
      | patch _ => exact absurd howner (by simp [VmOp.owner])
      | pushFrame _ _ => exact absurd howner (by simp [VmOp.owner])
      | receive _ _ => exact absurd howner (by simp [VmOp.owner])
    obtain rfl := hserving.memory.books.table.pgdir_inj e' e d hlive' hlive.1
      hd' hd
    exact absurd hown hstranger
  · rcases hsched.status with hs | hs
    · exact absurd (hs.symm.trans hfree) hlive.2
    · exact absurd (hs.2.symm.trans hfree) (by decide)

/-- How `sys_ipc_try_send` ends: it fails without effect, or has sent a
message. -/
theorem sends_cases (hcur : k₀.curenv c = some cur)
    (hno : call.no = .ipcTrySend) {io : Inputs} {r : Int}
    (hrun : (call.run io c).run k₀ = .ret r k₁) :
    (r ≠ 0 ∧ k₁ = k₀) ∨ (r = 0 ∧ ∃ rcv, k₀.envOf c call.a1 false = some rcv ∧
      (k₀.envs rcv).envIpcRecving = true ∧
      Sent k₀ c cur rcv call.a2 call.a3 call.a4 k₁) := by
  have hspec : call.run io c =
      sysIpcTrySend io c call.a1 call.a2 call.a3 call.a4 := by
    unfold Call.run
    rw [hno]
    rfl
  rw [hspec] at hrun
  exact wp_ret (sysIpcTrySend_wp hcur) hrun

/-- A message changes the record of its receiver only. -/
theorem Sent.envs {rcv : Nat} {value srcva perm : U32}
    (h : Sent k c cur rcv value srcva perm k') :
    ∃ p, k'.envs = (k.modifyEnv rcv (fun v =>
      (v.takePage p).deliver (k.envs cur).envId value)).envs := by
  cases h with
  | plain _ hdoes =>
      obtain rfl := hdoes
      exact ⟨none, rfl⟩
  | page k₂ _ _ hvm hdoes =>
      obtain rfl := hdoes
      have hp := hvm.sameProcs.envs
      refine ⟨some perm, ?_⟩
      funext e
      by_cases he : e = rcv
      · subst he
        simp [hp]
      · rw [Kernel.modifyEnv_envs_of_ne he, Kernel.modifyEnv_envs_of_ne he, hp]

/-- A system call that sends a message touches its receiver only. -/
theorem confined_send (h : Sound managed k) (hclean : ev.Clean k)
    (hserves : ev.Serves k k₀ c call) (hcur : k.curenv c = some cur)
    (hstep : ev.step k = some k') (hno : call.no = .ipcTrySend)
    (hlive : k.Live e) (he : e ≠ cur) :
    (¬ call.SendsTo k₀ ev.inputs c e → Untouched k k' e) ∧
      (call.SendsTo k₀ ev.inputs c e → DeliveredTo k k' e) := by
  obtain ⟨hsame, hserving⟩ := h.serving hserves hcur
  have henv : k₀.envs e = k.envs e := by
    obtain ⟨tf, heq, htf⟩ := hserves.envs e
    rw [heq, htf (fun hh => he (Option.some.inj (hh.symm.trans hcur)))]
  have hentries := (ev.maintained h hclean hstep).entries
  obtain ⟨cur', hcur', ⟨r, k₁, hrun, hs, hr⟩ | ⟨hrun, hl⟩⟩ := hserves.runs
    (fun c hp => (h.order.procs.halted c).mpr hp) hstep
  · obtain rfl := Option.some.inj (hcur.symm.trans hcur')
    have hne : (k₁.result cur r).curenv c ≠ some e := by
      have hcur₁ : (k₁.result cur r).curenv c = k₀.curenv c :=
        hs.sameCpus.curenv
      rw [hcur₁, hserving.curenv]
      exact fun hh => he (Option.some.inj hh).symm
    have hsched := hr.frame hne
    rw [Kernel.result, Kernel.modifyEnv_envs_of_ne he] at hsched
    rcases sends_cases hserving.curenv hno hrun with
      ⟨hr0, rfl⟩ | ⟨rfl, rcv, hrcv, -, hsent⟩
    · -- the call failed
      refine ⟨fun _ => ?_, fun hsend => ?_⟩
      · obtain ⟨hpages, -⟩ := hr.samePages (hserving.order.edit rfl rfl rfl rfl)
          (hserving.inKernel.congr ⟨rfl, rfl, rfl⟩) (hserving.loaded.edit rfl)
        have hresult : SamePages k₁ (k₁.result cur r) :=
          samePages_edit rfl rfl rfl Iff.rfl
        rw [henv] at hsched
        exact .of_scheduled (fun i j _ _ =>
          ((hsame.trans hresult).trans hpages).entry) hsched
      · obtain ⟨-, -, k₂, hrun'⟩ := hsend
        rw [hrun] at hrun'
        cases hrun'
        exact absurd rfl hr0
    · obtain ⟨p, henvs⟩ := hsent.envs
      have hsends : call.SendsTo k₀ ev.inputs c rcv := ⟨hno, hrcv, k₁, hrun⟩
      have hstatus : ∀ st, (k₁.envs e).envStatus = st → st ≠ .free →
          (k'.envs e).envStatus ≠ .free := by
        rintro st rfl hst hfree
        rcases hsched.status with hs' | hs'
        · exact hst (hs'.symm.trans hfree)
        · exact absurd (hs'.2.symm.trans hfree) (by decide)
      -- entries are set by the delivery only
      have hsets : (k'.envs e).envStatus ≠ .free → ∀ i j, i < userPdes →
          j < nptentries → k'.entry e i j = k.entry e i j ∨
          (e = rcv ∧ i = pdx (k₀.envs rcv).envIpcDstva ∧
            j = ptx (k₀.envs rcv).envIpcDstva) := by
        intro hfree i j hi hj
        rcases hentries e i j hlive.1 hi hj with heq | hset | ⟨-, hf, -⟩
        · exact Or.inl heq
        · obtain ⟨k₂, c₂, call₂, hserves₂, op, d, hop, hd, hset⟩ := hset
          obtain ⟨rfl, rfl, rfl⟩ := hserves.unique hserves₂
          have hvalid := hop.valid hserving.order hserving.inKernel
          cases hop with
          | pageAlloc hno' _ _ => exact absurd (hno.symm.trans hno') (by decide)
          | pageMap hno' _ _ _ _ => exact absurd (hno.symm.trans hno') (by decide)
          | pageUnmap hno' _ _ => exact absurd (hno.symm.trans hno') (by decide)
          | setTrapframe hno' _ => exact absurd (hno.symm.trans hno') (by decide)
          | pktRecv hno' => exact absurd (hno.symm.trans hno') (by decide)
          | ipcTrySend _ hrcv' _ _ _ _ =>
              obtain rfl := Option.some.inj (hrcv.symm.trans hrcv')
              obtain ⟨hd', rfl, rfl, -⟩ := hset
              exact Or.inr ⟨hserving.memory.books.table.pgdir_inj e rcv d
                hlive.1 hvalid.2.2.1.1 hd hd', rfl, rfl⟩
        · exact absurd hf hfree
      by_cases hrcve : e = rcv
      · subst hrcve
        have hself : k₁.envs e =
            ((k₀.envs e).takePage p).deliver (k₀.envs cur).envId call.a2 := by
          rw [henvs, Kernel.modifyEnv_envs_self]
        have hfree : (k'.envs e).envStatus ≠ .free :=
          hstatus .runnable (by rw [hself]; rfl) (by decide)
        refine ⟨fun hnot => absurd hsends hnot, fun _ => ?_⟩
        have hfields : (k'.envs e).envTf = (k₁.envs e).envTf ∧
            (k'.envs e).envPgfaultUpcall = (k₁.envs e).envPgfaultUpcall ∧
            (k'.envs e).envParentId = (k₁.envs e).envParentId ∧
            (k'.envs e).envId = (k₁.envs e).envId := by
          refine ⟨?_, ?_, ?_, ?_⟩
          all_goals rw [hsched.same]
        obtain ⟨htf, hupcall, hparent, hid⟩ := hfields
        rw [hself, henv] at htf hupcall hparent hid
        rw [henv] at hsets
        refine ⟨fun i j hi hj hdst => ?_, ?_, ?_, ?_, ?_⟩
        · exact (hsets hfree i j hi hj).resolve_right (fun hh => hdst hh.2)
        · rw [htf]
          cases p <;> rfl
        · rw [hupcall]
          cases p <;> rfl
        · rw [hparent]
          cases p <;> rfl
        · rw [hid]
          cases p <;> rfl
      · have hsame₁ : k₁.envs e = k.envs e := by
          rw [henvs, Kernel.modifyEnv_envs_of_ne hrcve, henv]
        rw [hsame₁] at hsched
        refine ⟨fun _ => .of_scheduled (fun i j hi hj => ?_) hsched,
          fun hsend => ?_⟩
        · have hfree := hstatus (k.envs e).envStatus (by rw [hsame₁]) hlive.2
          exact (hsets hfree i j hi hj).resolve_right (fun hh => hrcve hh.1)
        · exact absurd (Option.some.inj (hsend.2.1.symm.trans hrcv)) hrcve
  · have hspec : call.run ev.inputs c =
        sysIpcTrySend ev.inputs c call.a1 call.a2 call.a3 call.a4 := by
      unfold Call.run
      rw [hno]
      rfl
    rw [hspec] at hrun
    exact (wp_exited (sysIpcTrySend_wp hserving.curenv) hrun).elim

end Serving

/-! ## Two environments, one processor -/

section Allocating

variable {k : Kernel} {c : Nat} {tf : Trapframe} {io : Inputs} {call : Call}

/-- `sys_page_alloc` with a permission word that fits the next free page is
clean. -/
theorem pageAlloc_clean (hcall : tf.call = some call) (hno : call.no = .pageAlloc)
    (hfits : ∀ pg, k.vm.pageFreeList = some pg → PermFits call.a3 pg) :
    (Event.trap c tf io).Clean k := by
  refine trap_clean hcall (fun _ _ => Call.fair_of_page (Or.inl hno))
    (fun cur _ op hop => ?_)
  cases hop with
  | pageAlloc _ _ _ => exact hfits
  | pageMap h _ _ _ _ => exact absurd (hno.symm.trans h) (by decide)
  | pageUnmap _ _ _ => trivial
  | ipcTrySend h _ _ _ _ _ => exact absurd (hno.symm.trans h) (by decide)
  | setTrapframe h _ => exact absurd (hno.symm.trans h) (by decide)
  | pktRecv h => exact absurd (hno.symm.trans h) (by decide)

end Allocating

/-- `sys_page_alloc(0, USTACKTOP - 3*PGSIZE, PTE_U|PTE_P)` on processor 0. -/
def allocEvent : Event := callEvent 0 4 0 0xeebfb000#32 5 0 0

theorem allocEvent_clean {k : Kernel} {n : Nat} (hn : n < 2 ^ 20)
    (hlist : ∀ pg, k.vm.pageFreeList = some pg → pg < n) : allocEvent.Clean k := by
  refine pageAlloc_clean
    (rfl : _ = some (⟨.pageAlloc, 0, 0xeebfb000#32, 5, 0, 0⟩ : Call)) rfl
    (fun pg hpg => permFits_of_lt ?_ (by decide))
  exact Nat.lt_trans (hlist pg hpg) hn

/-- An environment maps its stack page again, with the address of its
neighbour's page table in the permission word, and unmaps it: the page table is
free. -/
def tableFreed : List Event :=
  [.start 0, callEvent 0 5 0 0xeebfd000#32 0 0xeebfc000#32 0x6007#32,
    callEvent 0 6 0 0xeebfc000#32 0 0 0]

end Jos

import Jos.Confinement

/-!
# The permissions that come with a message

`sys_ipc_try_send` stores `env_ipc_perm` of the receiver only when it has
installed a page.  A message without a page leaves what the last page came with.
In every run, the permissions that an environment finds are those of the last page
that was sent to its slot, or `0` if there was none.
-/

namespace Jos

open Programs

/-! ## Messages and pages -/

/-- In this step `sys_ipc_try_send` returns 0 for the receiver `rcv`. -/
def Event.Sends (ev : Event) (k : Kernel) (rcv : Nat) (call : Call) : Prop :=
  ∃ k₀ c, ev.Serves k k₀ c call ∧ call.SendsTo k₀ ev.inputs c rcv

/-- The sender has a page to send, and the receiver asks for one. -/
def Kernel.WithPage (k : Kernel) (rcv : Nat) (call : Call) : Prop :=
  call.a3 < utop ∧ (k.envs rcv).envIpcDstva < utop

instance (k : Kernel) (rcv : Nat) (call : Call) : Decidable (k.WithPage rcv call) :=
  instDecidableAnd

/-- The permissions of the last pages, after a step. -/
inductive Records (k : Kernel) (ev : Event) (w : Nat → U32) : (Nat → U32) → Prop where
  | page {rcv : Nat} {call : Call} :
      ev.Sends k rcv call → k.WithPage rcv call →
      Records k ev w (Function.update w rcv call.a4)
  | rest :
      (∀ rcv call, ev.Sends k rcv call → ¬ k.WithPage rcv call) → Records k ev w w

/-- The runs of the system, with the permissions of the last page that was sent to
each slot. -/
inductive PermRun (managed : Set Nat) : Kernel → (Nat → U32) → Prop where
  | boot {k : Kernel} : Booted managed k → PermRun managed k (fun _ => 0#32)
  | step {k k' : Kernel} {w w' : Nat → U32} (ev : Event) :
      PermRun managed k w → ev.step k = some k' → Records k ev w w' →
      PermRun managed k' w'

/-- Slots have these permissions; and what `trap` finds out about a processor is
true. -/
structure PermsAre (w : Nat → U32) (k : Kernel) : Prop where
  perm : ∀ e, (k.envs e).envIpcPerm = w e
  halted : ∀ c, (k.cpus c).place = .idle → (k.cpus c).cpuStatus = .halted

/-! ## What leaves the permissions alone -/

section Kept

variable {k k' k₁ : Kernel} {w : Nat → U32} {c cur : Nat} {io : Inputs} {call : Call}

theorem PermsAre.congr (h : PermsAre w k) (hcpus : k'.cpus = k.cpus)
    (hperm : ∀ e, (k'.envs e).envIpcPerm = (k.envs e).envIpcPerm) : PermsAre w k' :=
  ⟨fun e => (hperm e).trans (h.perm e), by rw [hcpus]; exact h.halted⟩

theorem PermsAre.sameProcs (h : PermsAre w k) (hp : SameProcs k k') : PermsAre w k' :=
  h.congr hp.cpus (fun e => by rw [hp.envs])

/-- A change of one slot that does not concern its permissions. -/
theorem PermsAre.edit (h : PermsAre w k) {e : Nat} {v : Env} (hcpus : k'.cpus = k.cpus)
    (henvs : k'.envs = Function.update k.envs e v)
    (hv : v.envIpcPerm = (k.envs e).envIpcPerm) : PermsAre w k' := by
  refine h.congr hcpus (fun e' => ?_)
  rw [henvs]
  by_cases he : e' = e
  · subst he
    rw [Function.update_self, hv]
  · rw [Function.update_of_ne he]

theorem PermsAre.modifyEnv (h : PermsAre w k) (e : Nat) {f : Env → Env}
    (hf : (f (k.envs e)).envIpcPerm = (k.envs e).envIpcPerm) : PermsAre w (k.modifyEnv e f) :=
  h.edit rfl rfl hf

/-- A change of one processor, which does not get to the `hlt` loop. -/
theorem PermsAre.enters (h : PermsAre w k) {p : CpuInfo} (henvs : k'.envs = k.envs)
    (hcpus : k'.cpus = Function.update k.cpus c p)
    (hp : p.place = .idle → p.cpuStatus = .halted) : PermsAre w k' := by
  refine ⟨fun e => by rw [henvs]; exact h.perm e, fun c' => ?_⟩
  rw [hcpus]
  by_cases hc : c' = c
  · subst hc
    rw [Function.update_self]
    exact hp
  · rw [Function.update_of_ne hc]
    exact h.halted c'

theorem PermsAre.dispatched (h : PermsAre w k) {j d : Nat} :
    PermsAre w (k.dispatched c j d) := by
  have hcpus : PermsAre w { k with cpus := (k.dispatched c j d).cpus } :=
    h.enters rfl rfl (fun hp => absurd hp nofun)
  refine ⟨fun e => ?_, hcpus.halted⟩
  rw [← h.perm e]
  unfold Kernel.dispatched
  dsimp only
  split
  · rename_i he
    rw [he]
  · split
    · rfl
    · rfl

theorem PermsAre.yields (h : PermsAre w k) (hy : Yields k c k') : PermsAre w k' := by
  cases hy with
  | dispatch j d _ _ => exact h.dispatched
  | halt _ _ _ => exact h.enters rfl rfl (fun _ => rfl)

theorem PermsAre.resumes (h : PermsAre w k) (hr : Resumes c k k') : PermsAre w k' := by
  cases hr with
  | same cur d _ _ _ hk =>
      rw [hk]
      exact h.dispatched
  | other _ hy => exact h.yields hy

theorem PermsAre.freed (h : PermsAre w k) {e : Nat} {vm : PhysMem} :
    PermsAre w (k.freed vm e) := h.edit rfl rfl rfl

theorem PermsAre.dies (h : PermsAre w k) (hd : Dies c cur k k') : PermsAre w k' := by
  obtain ⟨k₁, -, hfree, rfl⟩ := hd
  obtain ⟨d, vm, -, rfl⟩ := envFree_ret hfree
  exact h.freed.enters (c := c) rfl rfl (h.halted c)

theorem PermsAre.leaves (h : PermsAre w k) (hl : Leaves c cur k k') : PermsAre w k' := by
  cases hl with
  | dies k₁ k₂ hq hd hy => exact ((h.sameProcs hq.procs).dies hd).yields hy
  | waits dstva hy => exact (h.modifyEnv cur rfl).yields hy
  | yields k₁ hq hy => exact (h.sameProcs hq.procs).yields hy

/-- An operation that is no message. -/
theorem PermsAre.envOp (h : PermsAre w k) {op : EnvOp} (hop : op.Does c cur k k')
    (hno : ∀ rcv value perm, op ≠ .deliver rcv value perm) : PermsAre w k' := by
  cases op with
  | setTf e tf =>
      obtain rfl := hop
      exact h.edit rfl rfl rfl
  | setUpcall e func =>
      obtain rfl := hop
      exact h.edit rfl rfl rfl
  | setStatus e st =>
      obtain rfl := hop
      exact h.edit rfl rfl rfl
  | fork e =>
      obtain ⟨k₁, hrun, rfl⟩ := hop
      obtain ⟨-, p, vm, rfl⟩ := envAlloc_ret hrun
      have hmade : PermsAre w (k.allocated vm e p (k.envs cur).envId) := h.edit rfl rfl rfl
      exact hmade.modifyEnv e rfl
  | kill e =>
      obtain ⟨-, ⟨-, rfl⟩ | ⟨-, hfree⟩⟩ := hop
      · exact h.edit rfl rfl rfl
      · obtain ⟨d, vm, -, rfl⟩ := envFree_ret hfree
        exact h.freed
  | deliver rcv value perm => exact absurd rfl (hno rcv value perm)

/-- A message changes the permissions of its receiver if it comes with a page. -/
theorem PermsAre.sent (h : PermsAre w k) {rcv : Nat} {value srcva perm : U32}
    (hsent : Sent k c cur rcv value srcva perm k') :
    (¬ (srcva < utop ∧ (k.envs rcv).envIpcDstva < utop) ∧ PermsAre w k') ∨
      ((srcva < utop ∧ (k.envs rcv).envIpcDstva < utop) ∧
        PermsAre (Function.update w rcv perm) k') := by
  cases hsent with
  | plain hnot hop =>
      obtain rfl := hop
      exact Or.inl ⟨hnot, h.edit rfl rfl rfl⟩
  | page k₁ hsrc hdst hvm hop =>
      obtain rfl := hop
      have h₁ := h.sameProcs hvm.sameProcs
      refine Or.inr ⟨⟨hsrc, hdst⟩, fun e => ?_, h₁.halted⟩
      by_cases he : e = rcv
      · subst he
        rw [Kernel.modifyEnv_envs_self, Function.update_self]
        rfl
      · rw [Kernel.modifyEnv_envs_of_ne he, Function.update_of_ne he]
        exact h₁.perm e

/-- A system call that is no message. -/
theorem PermsAre.served (h : PermsAre w k) (hno : call.no ≠ .ipcTrySend)
    (hs : Served c cur (call.AsksVm k c) (call.AsksEnv k c) k k') : PermsAre w k' := by
  cases hs with
  | memory hvm => exact h.sameProcs hvm.sameProcs
  | envs op k₁ hvm hop hdoes =>
      refine (h.sameProcs hvm.sameProcs).envOp hdoes ?_
      rintro rcv value perm rfl
      cases hop with
      | ipcTrySend hsend => exact hno hsend

end Kept

/-! ## Steps -/

section Steps

variable {managed : Set Nat} {k k' k₀ k₁ : Kernel} {w w' : Nat → U32} {ev : Event}
  {c cur rcv : Nat} {call : Call}

theorem PermsAre.entered (h : PermsAre w k) : PermsAre w (k.enters c) :=
  h.enters (c := c) rfl rfl (fun hp => absurd (show Place.kernel = .idle from hp) (by decide))

theorem PermsAre.traps (h : PermsAre w k) : PermsAre w (k.traps c) :=
  h.entered.enters (c := c) rfl rfl (fun hp => by
    simp [Kernel.enters, Kernel.setPlace, Kernel.modifyCpu, Kernel.setLock] at hp)

theorem PermsAre.saved (h : PermsAre w k) (c cur : Nat) (tf : Trapframe) :
    PermsAre w ((k.traps c).saveTf cur tf) := h.traps.edit rfl rfl rfl

theorem Event.Serves.permsAre (h : PermsAre w k) (hserves : ev.Serves k k₀ c call) :
    PermsAre w k₀ := by
  cases hserves with
  | trap _ _ _ _ => exact h.saved _ _ _

/-- When the call is served, the receiver asks for the same. -/
theorem Event.Serves.withPage (hserves : ev.Serves k k₀ c call) :
    k.WithPage rcv call ↔ call.a3 < utop ∧ (k₀.envs rcv).envIpcDstva < utop := by
  obtain ⟨tf, heq, -⟩ := hserves.envs rcv
  rw [heq]
  exact Iff.rfl

theorem Event.Sends.unique {rcv' : Nat} {call' : Call} (h : ev.Sends k rcv call)
    (h' : ev.Sends k rcv' call') : rcv' = rcv ∧ call' = call := by
  obtain ⟨k₀, c, hserves, -, henv, -⟩ := h
  obtain ⟨k₁, c', hserves', -, henv', -⟩ := h'
  obtain ⟨rfl, rfl, rfl⟩ := hserves.unique hserves'
  exact ⟨Option.some.inj (henv'.symm.trans henv), rfl⟩

theorem Records.kept (hrec : Records k ev w w') (hno : ∀ rcv call, ¬ ev.Sends k rcv call) :
    w' = w := by
  cases hrec with
  | page hsends _ => exact absurd hsends (hno _ _)
  | rest _ => rfl

/-- A step in which a system call is served. -/
theorem Event.Serves.step_perms (h : PermsAre w k) (hserves : ev.Serves k k₀ c call)
    (hstep : ev.step k = some k') (hrec : Records k ev w w') : PermsAre w' k' := by
  have h₀ := hserves.permsAre h
  obtain ⟨cur, hcur, ⟨r, k₁, hrun, hs, hr⟩ | ⟨hrun, hl⟩⟩ := hserves.runs h.halted hstep
  · refine PermsAre.resumes (k := k₁.result cur r) ?_ hr
    refine PermsAre.edit (k := k₁) ?_ rfl rfl rfl
    by_cases hno : call.no = .ipcTrySend
    · rcases sends_cases (hserves.curenv.trans hcur) hno hrun with
        ⟨hr0, rfl⟩ | ⟨rfl, rcv, henv, -, hsent⟩
      · -- the call failed
        rwa [hrec.kept]
        rintro rcv call' ⟨k₂, c', hserves', -, -, k₃, hrun'⟩
        obtain ⟨rfl, rfl, rfl⟩ := hserves.unique hserves'
        cases hrun.symm.trans hrun'
        exact hr0 rfl
      · have hsends : ev.Sends k rcv call := ⟨k₀, c, hserves, hno, henv, k₁, hrun⟩
        rcases h₀.sent hsent with ⟨hnot, h₁⟩ | ⟨hpage, h₁⟩
        · cases hrec with
          | page hsends' hpage' =>
              obtain ⟨rfl, rfl⟩ := hsends.unique hsends'
              exact absurd (hserves.withPage.mp hpage') hnot
          | rest _ => exact h₁
        · cases hrec with
          | page hsends' _ =>
              obtain ⟨rfl, rfl⟩ := hsends.unique hsends'
              exact h₁
          | rest hrest => exact absurd (hserves.withPage.mpr hpage) (hrest rcv call hsends)
    · rw [hrec.kept]
      · exact h₀.served hno hs
      · rintro rcv call' ⟨k₂, c', hserves', hno', -⟩
        obtain ⟨-, -, rfl⟩ := hserves.unique hserves'
        exact hno hno'
  · rw [hrec.kept]
    · exact h₀.leaves hl
    · rintro rcv call' ⟨k₂, c', hserves', -, -, k₃, hrun'⟩
      obtain ⟨rfl, rfl, rfl⟩ := hserves.unique hserves'
      cases hrun.symm.trans hrun'

/-- Any step. -/
theorem Event.step_perms (h : PermsAre w k) (hstep : ev.step k = some k')
    (hrec : Records k ev w w') : PermsAre w' k' := by
  by_cases hserves : ∃ k₀ c call, ev.Serves k k₀ c call
  · obtain ⟨k₀, c, call, hserves⟩ := hserves
    exact hserves.step_perms h hstep hrec
  rw [hrec.kept (fun rcv call ⟨k₀, c, hs, _⟩ => hserves ⟨k₀, c, call, hs⟩)]
  cases Event.step_cases h.halted hstep with
  | @start c _ _ _ hy =>
      exact (h.entered (c := c)).yields hy
  | reap _ _ _ _ hd hy => exact (h.traps.dies hd).yields hy
  | @serve c cur tf io _ _ _ hcur hdying hh =>
      have hsaved := h.saved c cur tf
      cases hh with
      | returns call r k₁ hsys hcall _ _ _ =>
          exact absurd ⟨_, _, call, .trap hcur hdying hsys hcall⟩ hserves
      | leaves call hsys hcall _ _ =>
          exact absurd ⟨_, _, call, .trap hcur hdying hsys hcall⟩ hserves
      | badCall _ _ hr => exact (hsaved.modifyEnv cur rfl).resumes hr
      | fault utr words k₁ k₂ d _ _ _ hq hpush _ hk =>
          have h₂ := (hsaved.sameProcs hq.procs).sameProcs hpush.sameProcs
          rw [hk]
          exact (h₂.modifyEnv cur rfl).dispatched
      | gone _ hl => exact hsaved.leaves hl.leaves
      | ignored _ hr => exact hsaved.resumes hr
  | wake _ _ hq hr =>
      have h₁ := h.traps.sameProcs hq.procs
      exact hr.elim (fun hr => h₁.resumes hr) (fun hy => h₁.yields hy)
  | store _ _ _ => exact h.congr rfl (fun _ => rfl)
  | device hq => exact h.sameProcs hq.procs

/-- The environments that `i386_init` makes have no permissions. -/
theorem Booted.permsAre (h : Booted managed k) : PermsAre (fun _ => 0#32) k := by
  induction h with
  | @init k hinit hcpus _ _ =>
      obtain ⟨k₀, hzero, rfl⟩ := hinit.envs
      refine ⟨fun e => ?_, fun c hp => ?_⟩
      · change (k₀.envs e).envIpcPerm = 0#32
        rw [hzero]
        rfl
      · rw [hcpus] at hp
        exact absurd hp (by decide)
  | @create k k' binary type _ _ hrun ih =>
      obtain ⟨e, p, vm, -, hp⟩ := wp_ret (envCreate_procs 0 binary type k) hrun
      have hmade : PermsAre (fun _ => 0#32) (k.allocated vm e p 0#32) := ih.edit rfl rfl rfl
      refine (hmade.modifyEnv e ?_).sameProcs hp
      unfold Env.created
      dsimp only
      split
      · rfl
      · rfl

theorem PermRun.permsAre (h : PermRun managed k w) : PermsAre w k := by
  induction h with
  | boot hb => exact hb.permsAre
  | step ev _ hstep hrec ih => exact ev.step_perms ih hstep hrec

/-- Every run has such permissions. -/
theorem RunOf.exists_permRun {Ok : Kernel → Event → Prop} (h : RunOf managed Ok k) :
    ∃ w, PermRun managed k w := by
  induction h with
  | boot hb => exact ⟨_, .boot hb⟩
  | @step k k' ev _ _ hstep ih =>
      obtain ⟨w, hw⟩ := ih
      by_cases hpage : ∃ rcv call, ev.Sends k rcv call ∧ k.WithPage rcv call
      · obtain ⟨rcv, call, hsends, hpage⟩ := hpage
        exact ⟨_, .step ev hw hstep (.page hsends hpage)⟩
      · exact ⟨_, .step ev hw hstep
          (.rest (fun rcv call hsends hwith => hpage ⟨rcv, call, hsends, hwith⟩))⟩

/-- What a message leaves in its receiver. -/
theorem PermRun.sent (h : PermRun managed k w) (hstep : ev.step k = some k')
    (hsends : ev.Sends k rcv call) :
    (k'.envs rcv).envIpcPerm = if k.WithPage rcv call then call.a4 else w rcv := by
  by_cases hpage : k.WithPage rcv call
  · have hrec : Records k ev w (Function.update w rcv call.a4) := .page hsends hpage
    rw [if_pos hpage, (ev.step_perms h.permsAre hstep hrec).perm, Function.update_self]
  · have hrec : Records k ev w w := by
      refine .rest (fun rcv' call' hsends' => ?_)
      obtain ⟨rfl, rfl⟩ := hsends.unique hsends'
      exact hpage
    rw [if_neg hpage, (ev.step_perms h.permsAre hstep hrec).perm]

end Steps

/-! ## A message without a page after one with a page -/

/-- `sys_ipc_try_send` to environment 0. -/
def sendEvent (srcva perm : U32) : Event := callEvent 0 12#32 0x1000#32 1#32 srcva perm 0#32

/-- The call of this event. -/
def sendCall (srcva perm : U32) : Call :=
  ⟨.ipcTrySend, 0x1000#32, 1#32, srcva, perm, 0#32⟩

/-- Environment 0 receives, and environment 1 gets a page. -/
def beforePage : List Event :=
  [.start 0, callEvent 0 13#32 0x200000#32 0#32 0#32 0#32 0#32,
    callEvent 0 4#32 0#32 0x200000#32 7#32 0#32 0#32]

/-- The page is sent, and environment 0 receives again. -/
def beforeWord : List Event :=
  beforePage ++ [sendEvent 0x200000#32 7#32, callEvent 0 11#32 0#32 0#32 0#32 0#32 0#32,
    callEvent 0 13#32 0x200000#32 0#32 0#32 0#32 0#32]

/-- Environment 1 sends and the call returns 0, leaving these permissions. -/
def Kernel.sendsLeaving (k : Kernel) (srcva perm left : U32) : Bool :=
  let k₀ := (k.traps 0).saveTf 1 (syscallTf 12#32 0x1000#32 1#32 srcva perm 0#32)
  decide (k.curenv 0 = some 1) && decide ((k.envs 1).envStatus ≠ .dying) &&
    decide (k₀.envOf 0 0x1000#32 false = some 0) &&
    (match ((sendCall srcva perm).run ⟨0, 0#32, none⟩ 0).run k₀ with
      | .ret r _ => decide (r = 0)
      | _ => false) &&
    ((sendEvent srcva perm).step k).any (fun k' => decide ((k'.envs 0).envIpcPerm = left))

theorem sendsLeaving_sends {k : Kernel} {srcva perm left : U32}
    (h : k.sendsLeaving srcva perm left = true) :
    (sendEvent srcva perm).Sends k 0 (sendCall srcva perm) ∧
      ∃ k', (sendEvent srcva perm).step k = some k' ∧ (k'.envs 0).envIpcPerm = left := by
  unfold Kernel.sendsLeaving at h
  simp only [Bool.and_eq_true, decide_eq_true_eq, Option.any_eq_true] at h
  obtain ⟨⟨⟨⟨hcur, hdying⟩, henv⟩, hret⟩, k', hstep, hleft⟩ := h
  refine ⟨⟨_, 0, .trap hcur hdying rfl rfl, rfl, henv, ?_⟩, k', hstep, hleft⟩
  split at hret
  · rename_i r k₁ hrun
    rw [of_decide_eq_true hret] at hrun
    exact ⟨k₁, hrun⟩
  · exact absurd hret (by decide)

end Jos

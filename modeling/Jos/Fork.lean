import Jos.UserCalls

/-!
# `lib/fork.c`

`fork` maps every page of the caller in the child, page by page: a page that the caller
may write is marked copy-on-write in both, and the next write to it faults and gives
the writer a copy (`pgfault`).  `fork` runs on a page that it marks itself, so that its
own pushes may fault from then on.
-/

namespace Jos.User

open Programs

/-- `PGNUM(PFTEMP)`. -/
def pftempPage : Nat := 0x7FF

namespace Fork

/-- What `fork` depends on besides the address space. -/
structure Setting where
  /-- The environment that `env_alloc` finds. -/
  slot : Option Int
  slot_pos : ∀ c, slot = some c → 0 < c
  /-- The page of the stack that `fork` runs on, and where the stack pointer of its caller
  is in it. -/
  stack : Nat
  esp : Nat
  /-- User text begins above `PFTEMP`, and the stack ends at `USTACKTOP`. -/
  stack_lo : pftempPage < stack
  stack_hi : stack < stackPages
  /-- What the `n`th push leaves below the stack pointer. -/
  frames : Nat → Nat → U8

/-- A program that forks. -/
structure Forker where
  caller : Caller
  /-- Whether `_pgfault_handler` is set. -/
  handler : Bool
  pushes : Nat

def onCaller {α : Type} (m : Prog Caller α) : Prog Forker α :=
  m.zoom (fun s => s.caller) (fun c s => { s with caller := c })

/-! ## `pgfault` -/

/-- `memmove`, of a whole page to another. -/
def movePage (dst src : Nat) : Prog Caller Unit := do
  let s ← Prog.get
  match s.own.entry dst with
  | none => Prog.stop
  | some w =>
      match s.own.entry src with
      | none => Prog.stop
      | some w' =>
          Prog.modify (fun s => { s with
            bytes := Function.update s.bytes w.page (s.bytes w'.page) })

/-- `pgfault`, for a write to page number `v`. -/
def pgfault (v : Nat) : Prog Caller Unit := do
  let s ← Prog.get
  Prog.when (¬ HasFlag (s.perm v) pteCow) Prog.stop
  let r ← sysPageAlloc .own pftempPage (pteP ||| pteU ||| pteW)
  Prog.when (r < 0) Prog.stop
  movePage pftempPage v
  let r ← sysPageMap pftempPage .own v (pteU ||| pteP ||| pteW)
  Prog.when (r < 0) Prog.stop
  let r ← sysPageUnmap pftempPage
  Prog.when (r < 0) Prog.stop

section Fork

variable (g : Setting)

/-! ## The stack -/

/-- The words below the stack pointer are written. -/
def pushed (n : Nat) (old : Nat → U8) : Nat → U8 :=
  fun o => if o < g.esp then g.frames n o else old o

/-- A push, while `pgfault` does not handle faults. -/
def storeFrame : Prog Forker Unit := do
  let s ← Prog.get
  match s.caller.own.entry g.stack with
  | none => Prog.stop
  | some w =>
      if HasFlag w.perm pteW then
        Prog.modify (fun s => { s with
          caller := { s.caller with
            bytes := Function.update s.caller.bytes w.page
              (pushed g s.pushes (s.caller.bytes w.page)) }
          pushes := s.pushes + 1 })
      else Prog.stop

/-- A call pushes its arguments and the return address. -/
def push : Prog Forker Unit := do
  let s ← Prog.get
  Prog.when (¬ HasFlag (s.caller.perm g.stack) pteW) (onCaller (pgfault g.stack))
  storeFrame g

/-! ## `fork` -/

/-- `set_pgfault_handler`. -/
def setPgfaultHandler : Prog Forker Unit := do
  let s ← Prog.get
  Prog.when (s.handler = false) (do
    storeFrame g
    let r ← onCaller (sysPageAlloc .own xstackPage (pteW ||| pteU ||| pteP))
    Prog.when (r < 0) Prog.stop
    -- `sys_env_set_pgfault_upcall`
    storeFrame g)
  Prog.modify (fun s => { s with handler := true })

/-- `sys_exofork`. -/
def sysExofork : Prog Caller Int :=
  match g.slot with
  | none => pure (-eNoFreeEnv)
  | some c => do
      -- the page directory
      let ok ← needPage
      if ok then do
        Prog.modify (fun s => { s with child := some PageTable.empty })
        pure c
      else pure (-eNoMem)

/-- `sys_env_set_status`, of the child. -/
def sysEnvSetStatus : Prog Caller Int := do
  let s ← Prog.get
  pure (if s.child.isSome then 0 else -eBadEnv)

/-- `duppage`. -/
def duppage (pn : Nat) : Prog Forker Unit := do
  push g
  let s ← Prog.get
  if HasFlag (s.caller.perm pn) pteShare then do
    push g
    let _ ← onCaller (sysPageMap pn .child pn pteSyscall)
    pure ()
  else if HasFlag (s.caller.perm pn) pteW ∨ HasFlag (s.caller.perm pn) pteCow then do
    push g
    let r ← onCaller (sysPageMap pn .child pn (pteCow ||| pteU ||| pteP))
    Prog.when (r < 0) Prog.stop
    push g
    let r ← onCaller (sysPageMap pn .own pn (pteCow ||| pteU ||| pteP))
    Prog.when (r < 0) Prog.stop
  else do
    push g
    let _ ← onCaller (sysPageMap pn .child pn (pteU ||| pteP))
    pure ()

/-- The loop of `fork`, at page number `pn`. -/
def forkPage (pn : Nat) : Prog Forker Unit := do
  let s ← Prog.get
  Prog.when (HasFlag (s.caller.perm pn) pteP ∧ HasFlag (s.caller.perm pn) pteU)
    (duppage g pn)

/-- `fork`, in the parent. -/
def fork : Prog Forker Int := do
  storeFrame g
  setPgfaultHandler g
  push g
  let envid ← onCaller (sysExofork g)
  Prog.when (envid < 0) Prog.stop
  Prog.forRange 0 stackPages (forkPage g)
  push g
  let r ← onCaller (sysPageAlloc .child xstackPage (pteP ||| pteW ||| pteU))
  Prog.when (r < 0) Prog.stop
  -- `sys_env_set_pgfault_upcall`
  push g
  push g
  let r ← onCaller sysEnvSetStatus
  Prog.when (r < 0) Prog.stop
  pure envid

-- the unifier is not to run the loop
attribute [irreducible] fork

end Fork

/-! ## Memory -/

/-- Of the requests for memory from number `a` to before `b`, one is refused. -/
def Refused (memory : Nat → Bool) (a b : Nat) : Prop := ∃ n, a ≤ n ∧ n < b ∧ memory n = false

section Memory

variable {memory : Nat → Bool} {a b d : Nat}

theorem not_refused_self : ¬ Refused memory a a := by
  rintro ⟨n, hlo, hhi, -⟩
  omega

theorem refused_split (hab : a ≤ b) (hbd : b ≤ d) :
    Refused memory a d ↔ Refused memory a b ∨ Refused memory b d := by
  constructor
  · rintro ⟨n, hlo, hhi, hn⟩
    by_cases h : n < b
    · exact Or.inl ⟨n, hlo, h, hn⟩
    · exact Or.inr ⟨n, by omega, hhi, hn⟩
  · rintro (⟨n, hlo, hhi, hn⟩ | ⟨n, hlo, hhi, hn⟩)
    · exact ⟨n, hlo, by omega, hn⟩
    · exact ⟨n, by omega, hhi, hn⟩

theorem Refused.some (h : Refused memory a b) : ∃ n, memory n = false := by
  obtain ⟨n, -, -, hn⟩ := h
  exact ⟨n, hn⟩

theorem refused_one : Refused memory a (a + 1) ↔ memory a = false := by
  constructor
  · rintro ⟨n, hlo, hhi, hn⟩
    rwa [show a = n by omega]
  · exact fun h => ⟨a, Nat.le_refl a, Nat.lt_succ_self a, h⟩

end Memory

/-! ## The calls -/

section Calls

variable {c : Caller} {who : Who} {t : PageTable} {v : Nat} {perm : U32}

/-- Where the requests of a call end, and whether one is refused. -/
theorem needTable_asks : Returns (needTable t v) (fun ok c' => ∃ k, c.asked ≤ k ∧
    c' = { c with asked := k } ∧ (ok = true ↔ ¬ Refused c.memory c.asked k)) c := by
  unfold needTable
  refine wp_ite (fun _ => ⟨c.asked, Nat.le_refl _, rfl, ?_⟩)
    (fun _ => ⟨c.asked + 1, Nat.le_succ _, rfl, ?_⟩)
  · exact iff_of_true rfl not_refused_self
  · rw [refused_one, Bool.not_eq_false]

theorem pageInsert_asks {w : UserPte} {hw : v < userPages ∧ UserFlags w.perm} :
    Returns (pageInsert who t v w hw) (fun r c' => ∃ k, c.asked ≤ k ∧
      ((r < 0 ∧ Refused c.memory c.asked k ∧ c' = { c with asked := k }) ∨
       (r = 0 ∧ ¬ Refused c.memory c.asked k ∧
        c' = Caller.setSpace { c with asked := k } (t.fill v w hw) who))) c := by
  unfold pageInsert
  refine returns_bind needTable_asks (fun ok c' hc' => ?_)
  obtain ⟨k, hk, rfl, hok⟩ := hc'
  refine wp_ite (fun h => ⟨k, hk, Or.inr ⟨rfl, hok.mp h, rfl⟩⟩)
    (fun h => ⟨k, hk, Or.inl ⟨by decide, ?_, rfl⟩⟩)
  exact not_not.mp (fun hno => h (hok.mpr hno))

/-- The call enters a page, or memory is refused. -/
theorem sysPageAlloc_asks (ht : c.space who = some t) (hw : v < userPages ∧ UserFlags perm) :
    Returns (sysPageAlloc who v perm) (fun r c' =>
      (r < 0 ∧ ∃ n, c.memory n = false) ∨
      (r = 0 ∧ ∃ k, c.asked ≤ k ∧ ¬ Refused c.memory c.asked k ∧
        c' = Caller.setSpace { c with
          asked := k
          bytes := Function.update c.bytes c.fresh (fun _ => 0#8)
          fresh := c.fresh + 1 } (t.fill v ⟨c.fresh, perm⟩ hw) who)) c := by
  unfold sysPageAlloc
  rw [Returns, wp_get_bind, ht]
  dsimp only
  rw [dif_pos hw]
  unfold needPage
  rw [wp_bind, wp_get_bind, wp_modify_bind, wp_pure]
  dsimp only
  refine wp_ite (fun hyes => ?_) (fun hno => Or.inl ⟨by decide, c.asked, Bool.not_eq_true _ ▸ hno⟩)
  rw [wp_modify_bind]
  refine wp_of_returns pageInsert_asks ?_
  rintro r c' ⟨k, hk, ⟨hr, hrefused, rfl⟩ | ⟨hr, hgiven, rfl⟩⟩
  · exact Or.inl ⟨hr, hrefused.some⟩
  · refine Or.inr ⟨hr, k, (Nat.le_succ _).trans hk, ?_, rfl⟩
    rw [refused_split (Nat.le_succ _) hk, refused_one, hyes]
    exact not_or.mpr ⟨Bool.noConfusion, hgiven⟩

/-- The call maps a page, or it may not, or memory is refused. -/
theorem sysPageMap_asks {src : Nat} {w : UserPte} (ht : c.space who = some t)
    (hsrc : c.own.entry src = some w) (hw : v < userPages ∧ UserFlags perm) :
    Returns (sysPageMap src who v perm) (fun r c' => ∃ k, c.asked ≤ k ∧
      ((r < 0 ∧ c' = { c with asked := k } ∧ (Refused c.memory c.asked k ∨
          ¬ Refused c.memory c.asked k ∧ ¬ HasFlag w.perm pteW ∧ HasFlag perm pteW)) ∨
       (r = 0 ∧ ¬ Refused c.memory c.asked k ∧ (HasFlag perm pteW → HasFlag w.perm pteW) ∧
        c' = Caller.setSpace { c with asked := k } (t.fill v ⟨w.page, perm⟩ hw) who))) c := by
  unfold sysPageMap
  rw [Returns, wp_get_bind, ht]
  dsimp only
  rw [hsrc]
  dsimp only
  rw [dif_pos hw]
  refine wp_ite (fun hread => ?_) (fun hgrant => ?_)
  · exact ⟨c.asked, Nat.le_refl _, Or.inl ⟨by decide, rfl, Or.inr ⟨not_refused_self, hread⟩⟩⟩
  · refine wp_of_returns pageInsert_asks ?_
    rintro r c' ⟨k, hk, ⟨hr, hrefused, rfl⟩ | ⟨hr, hgiven, rfl⟩⟩
    · exact ⟨k, hk, Or.inl ⟨hr, rfl, Or.inl hrefused⟩⟩
    · exact ⟨k, hk, Or.inr ⟨hr, hgiven, fun h => not_not.mp (fun hno => hgrant ⟨hno, h⟩), rfl⟩⟩

end Calls

/-! ## What a fault does -/

/-- The entry that `pgfault` makes. -/
def copyPte (p : Nat) : UserPte := ⟨p, pteU ||| pteP ||| pteW⟩

/-- A page was replaced by a copy, in a page that was never used; there was memory for it. -/
structure Copied (v : Nat) (w : UserPte) (c c' : Caller) : Prop where
  entry : c'.own.entry =
    Function.update (Function.update c.own.entry v (some (copyPte c.fresh))) pftempPage none
  child : c'.child = c.child
  bytes : ∀ p, p ≠ c.fresh → c'.bytes p = c.bytes p
  copy : v ≠ pftempPage → w.page < c.fresh → c'.bytes c.fresh = c.bytes w.page
  fresh : c'.fresh = c.fresh + 1
  memory : c'.memory = c.memory
  asked : c.asked ≤ c'.asked
  given : ¬ Refused c.memory c.asked c'.asked

section Fault

variable {c : Caller} {v : Nat} {w : UserPte}

theorem hasFlag_perm {f : U32} (hv : c.own.entry v = some w) (hf : pteSyscall &&& f = f) :
    HasFlag (c.perm v) f ↔ HasFlag w.perm f := by
  have hperm : c.perm v = w.perm &&& pteSyscall := by
    unfold Caller.perm
    rw [hv]
  unfold HasFlag
  rw [hperm, BitVec.and_assoc, hf]

theorem movePage_returns {dst src : Nat} {w' : UserPte} (hdst : c.own.entry dst = some w)
    (hsrc : c.own.entry src = some w') : Returns (movePage dst src) (fun _ c' => c' = { c with
      bytes := Function.update c.bytes w.page (c.bytes w'.page) }) c := by
  unfold movePage
  rw [Returns, wp_get_bind, hdst]
  dsimp only
  rw [hsrc]
  dsimp only
  rw [wp_modify]

theorem sysPageUnmap_returns (hv : v < userPages) :
    Returns (sysPageUnmap v) (fun r c' => r = 0 ∧ c' = { c with own := c.own.clear v }) c := by
  unfold sysPageUnmap
  rw [if_pos hv]
  exact ⟨rfl, rfl⟩

theorem pgfault_wp (hv : c.own.entry v = some w) (hcow : HasFlag w.perm pteCow) :
    wp (pgfault v) ⟨fun _ c' => Copied v w c c', fun _ => False,
      fun _ => ∃ n, c.memory n = false⟩ c := by
  have halloc : pftempPage < userPages ∧ UserFlags (pteP ||| pteU ||| pteW) := by decide
  have hmap : v < userPages ∧ UserFlags (pteU ||| pteP ||| pteW) :=
    ⟨c.own.below v w hv, by decide⟩
  unfold pgfault
  rw [wp_get_bind]
  refine wp_assert (fun _ => ?_) (fun hno => absurd ((hasFlag_perm hv (by decide)).mpr hcow) hno)
  refine wp_checked (sysPageAlloc_asks rfl halloc) ?_ ?_
  · rintro r c₁ (⟨-, hnone⟩ | ⟨rfl, -⟩) hr
    · exact hnone
    · exact absurd hr (by decide)
  rintro r c₁ (⟨hr, -⟩ | ⟨-, k, hk, hgiven, rfl⟩) hnr
  · exact absurd hr hnr
  have htemp : (c.own.fill pftempPage ⟨c.fresh, pteP ||| pteU ||| pteW⟩ halloc).entry pftempPage =
      some ⟨c.fresh, pteP ||| pteU ||| pteW⟩ := PageTable.fill_self
  -- the page at `PFTEMP` itself has just been replaced
  have hold : ∃ w', (c.own.fill pftempPage ⟨c.fresh, pteP ||| pteU ||| pteW⟩ halloc).entry v =
      some w' ∧ (v ≠ pftempPage → w' = w) := by
    by_cases hne : v = pftempPage
    · exact ⟨_, (congrArg _ hne).trans htemp, fun h => absurd hne h⟩
    · exact ⟨w, (Function.update_of_ne hne _ _).trans hv, fun _ => rfl⟩
  obtain ⟨w', hold, hw'⟩ := hold
  rw [wp_bind]
  refine wp_of_returns (movePage_returns htemp hold) (fun _ c₂ hc₂ => ?_)
  subst hc₂
  refine wp_checked (sysPageMap_asks rfl htemp hmap) ?_ ?_
  · rintro r c₃ ⟨k', -, ⟨-, -, hrefused | ⟨-, hread, -⟩⟩ | ⟨rfl, -⟩⟩ hr
    · exact hrefused.some
    · exact absurd (show HasFlag (pteP ||| pteU ||| pteW) pteW by decide) hread
    · exact absurd hr (by decide)
  rintro r c₃ ⟨k', hk', ⟨hr, -⟩ | ⟨-, hgiven', -, rfl⟩⟩ hnr
  · exact absurd hr hnr
  refine wp_checked_end (sysPageUnmap_returns halloc.1) ?_ ?_
  · rintro r c₄ ⟨rfl, -⟩ hr
    exact absurd hr (by decide)
  rintro r c₄ ⟨-, rfl⟩ -
  refine ⟨?_, rfl, fun p hp => ?_, fun hne hused => ?_, rfl, rfl, hk.trans hk', ?_⟩
  · change Function.update (Function.update (Function.update c.own.entry pftempPage _) v
      (some (copyPte c.fresh))) pftempPage none = _
    by_cases hne : v = pftempPage
    · rw [hne, Function.update_idem, Function.update_idem, Function.update_idem]
    · rw [Function.update_comm hne, Function.update_idem, Function.update_comm (Ne.symm hne)]
  · dsimp only [Caller.setSpace]
    rw [Function.update_of_ne hp, Function.update_of_ne hp]
  · dsimp only [Caller.setSpace]
    rw [Function.update_self, hw' hne, Function.update_of_ne (Nat.ne_of_lt hused)]
  · exact fun h => ((refused_split hk hk').mp h).elim hgiven hgiven'

/-- A fault that is handled is one of a page that is marked. -/
theorem pgfault_ret {c' : Caller} (h : (pgfault v).run c = .ret () c') :
    ∃ w, c.own.entry v = some w ∧ HasFlag w.perm pteCow ∧ Copied v w c c' := by
  have hwp : wp (pgfault v) (Partial (fun _ _ => HasFlag (c.perm v) pteCow) (fun _ => True)) c := by
    unfold pgfault
    rw [wp_get_bind]
    exact wp_assert (fun hcow => wp_of_always (fun _ _ => hcow) (fun _ => trivial)
      (fun _ => trivial)) (fun _ => trivial)
  have hflag : HasFlag (c.perm v) pteCow := wp_ret hwp h
  cases hv : c.own.entry v with
  | none =>
      unfold Caller.perm at hflag
      rw [hv] at hflag
      exact absurd hflag (not_hasFlag_zero pteCow)
  | some w =>
      have hcow := (hasFlag_perm hv (by decide)).mp hflag
      exact ⟨w, rfl, hcow, wp_ret (pgfault_wp hv hcow) h⟩

end Fault

end Fork

end Jos.User

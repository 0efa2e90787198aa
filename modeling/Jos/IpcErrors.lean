import Jos.PageCalls
import Jos.PageInsertion

/-!
# The errors of `sys_ipc_try_send`

The comment above `sys_ipc_try_send` lists its errors.  The code looks at the flags of the page at
`srcva` before it knows whether there is a page, and never asks whether `perm` is appropriate.
`sysIpcTrySend_specified_iff` says when it does what the comment says all the same.
-/

namespace Jos

open Programs

/-! ## What the comment says -/

/-- `perm` is as `sys_page_alloc` wants it. -/
def Appropriate (perm : U32) : Prop :=
  perm &&& permFlags = permFlags ∧ perm &&& ~~~pteSyscall = 0#32

/-- The page at `srcva` cannot be sent with `perm`. -/
structure Kernel.Sendable (k : Kernel) (cur : Nat) (srcva perm : U32) : Prop where
  aligned : srcva = roundDown srcva pgsize
  appropriate : Appropriate perm
  mapped : ∃ w, k.entry cur (pdx srcva) (ptx srcva) = some w ∧ (HasFlag perm pteW → HasFlag w pteW)

/-- There is not enough memory to map a page where the receiver wants it. -/
def Kernel.NoRoom (k : Kernel) (rcv : Nat) : Prop :=
  ∃ d, (k.envs rcv).envPgdir = some d ∧ k.vm.NoTable d (k.envs rcv).envIpcDstva

open Classical in
/-- The result that the comment asks for. -/
noncomputable def Kernel.sendResult (k : Kernel) (c cur : Nat) (envid srcva perm : U32) : Int :=
  match k.envOf c envid false with
  | none => -eBadEnv
  | some rcv =>
      if (k.envs rcv).envIpcRecving = false then -eIpcNotRecv
      else if srcva < utop ∧ ¬ k.Sendable cur srcva perm then -eInval
      else if srcva < utop ∧ (k.envs rcv).envIpcDstva < utop ∧ k.NoRoom rcv then -eNoMem
      else 0

/-- `sys_ipc_try_send` returns what the comment says, and an error leaves everything as it was,
whatever a pointer points to that `page_lookup` has not set, and even if it points nowhere. -/
def Kernel.SendsAsSpecified (k : Kernel) (c cur : Nat) (envid value srcva perm : U32) : Prop :=
  ∀ io : Inputs, Returns (sysIpcTrySend io c envid value srcva perm) (fun r k' =>
    r = k.sendResult c cur envid srcva perm ∧ (r ≠ 0 → k' = k)) k

/-- What is missing in the code does not matter: a page is only looked at if there is one; for a
`perm` that is appropriate it is a page of the user, or it cannot be sent anyway; and a `perm`
that is not has a flag that the page does not have. -/
def Kernel.SendChecked (k : Kernel) (c cur : Nat) (envid srcva perm : U32) : Prop :=
  ∀ rcv, k.envOf c envid false = some rcv → (k.envs rcv).envIpcRecving = true → srcva < utop →
    srcva = roundDown srcva pgsize → ∃ w, k.entry cur (pdx srcva) (ptx srcva) = some w ∧
      (Appropriate perm → HasFlag w pteU ∨ (HasFlag perm pteW ∧ ¬ HasFlag w pteW)) ∧
      (¬ Appropriate perm → w &&& perm &&& 7#32 ≠ perm &&& 7#32)

section Flags

variable {w perm : U32}

theorem hasFlag_twoPow {i : Nat} (hi : i < 32) :
    HasFlag w (BitVec.twoPow 32 i) ↔ w.getLsbD i = true := by
  have hne : BitVec.twoPow 32 i ≠ 0#32 := by
    intro h
    have hbit := congrArg (fun b => b.getLsbD i) h
    simp [hi] at hbit
  unfold HasFlag
  rw [BitVec.and_twoPow]
  split
  · rename_i h
    exact iff_of_true hne h
  · rename_i h
    exact iff_of_false (fun hne => hne rfl) h

theorem low_iff : w &&& perm &&& 7#32 = perm &&& 7#32 ↔
    ∀ i, i < 3 → perm.getLsbD i = true → w.getLsbD i = true := by
  have hseven : ∀ i, i < 32 → ((7#32).getLsbD i = true ↔ i < 3) := by decide
  constructor
  · intro h i hi hperm
    have hbit := congrArg (fun b => b.getLsbD i) h
    have hseven' := (hseven i (by omega)).mpr hi
    simp only [BitVec.getLsbD_and, hperm, hseven', Bool.and_true] at hbit
    exact hbit
  · intro h
    refine BitVec.eq_of_getLsbD_eq (fun i hi => ?_)
    simp only [BitVec.getLsbD_and]
    by_cases hlow : i < 3
    · cases hperm : perm.getLsbD i with
      | false => simp
      | true => simp [h i hlow hperm]
    · rw [Bool.eq_false_iff.mpr (fun hseven' => hlow ((hseven i hi).mp hseven'))]
      simp

/-- The three low flags of `perm` are flags of `w`. -/
theorem low_flags : w &&& perm &&& 7#32 = perm &&& 7#32 ↔
    (HasFlag perm pteP → HasFlag w pteP) ∧ (HasFlag perm pteW → HasFlag w pteW) ∧
      (HasFlag perm pteU → HasFlag w pteU) := by
  have hp : ∀ v : U32, HasFlag v pteP ↔ v.getLsbD 0 = true := fun _ =>
    hasFlag_twoPow (i := 0) (by decide)
  have hw : ∀ v : U32, HasFlag v pteW ↔ v.getLsbD 1 = true := fun _ =>
    hasFlag_twoPow (i := 1) (by decide)
  have hu : ∀ v : U32, HasFlag v pteU ↔ v.getLsbD 2 = true := fun _ =>
    hasFlag_twoPow (i := 2) (by decide)
  rw [low_iff, hp, hp, hw, hw, hu, hu]
  constructor
  · exact fun h => ⟨h 0 (by decide), h 1 (by decide), h 2 (by decide)⟩
  · rintro ⟨h0, h1, h2⟩ i hi
    interval_cases i
    · exact h0
    · exact h1
    · exact h2

theorem Appropriate.user (h : Appropriate perm) : HasFlag perm pteU := by
  intro hzero
  have hbits := congrArg (fun b => b &&& pteU) h.1
  rw [BitVec.and_assoc, BitVec.and_comm permFlags, ← BitVec.and_assoc, hzero] at hbits
  exact absurd hbits (by decide)

end Flags

/-! ## What the code does -/

section Sends

variable {managed : Set Nat} {k : Kernel} {io : Inputs} {c cur rcv ds : Nat}
  {envid value srcva perm w : U32} {found : Option (Nat × PtePtr)}

theorem envid2env_none (hcur : k.curenv c = some cur) (h : k.envOf c envid false = none) :
    (envid2env c envid false).run k = .ret (.error (-eBadEnv)) k := by
  unfold Kernel.envOf at h
  unfold envid2env at h ⊢
  rw [Prog.run_bind_ret (Prog.run_get k)] at h ⊢
  by_cases hzero : envid = 0#32
  · rw [if_pos hzero, hcur] at h
    cases h
  · rw [if_neg hzero] at h ⊢
    dsimp only at h ⊢
    by_cases hbad : (k.envs (envx envid)).envStatus = .free ∨ (k.envs (envx envid)).envId ≠ envid
    · rw [if_pos hbad]
      rfl
    · rw [if_neg hbad, if_neg (by simp)] at h
      cases h

/-- A message for an environment that does not wait is refused. -/
theorem sysIpcTrySend_refused {io : Inputs} (hrcv : k.envOf c envid false = some rcv)
    (hno : (k.envs rcv).envIpcRecving = false) :
    (sysIpcTrySend io c envid value srcva perm).run k = .ret (-eIpcNotRecv) k := by
  unfold sysIpcTrySend
  rw [Prog.run_bind_ret (envid2env_run hrcv)]
  dsimp only
  rw [Prog.run_bind_ret (Prog.run_get k), if_pos hno]
  rfl

/-- `sys_ipc_try_send` behind `page_lookup`. -/
def sendFound (io : Inputs) (k : Kernel) (c cur rcv : Nat) (value srcva perm : U32)
    (found : Option (Nat × PtePtr)) : Prog Kernel Int :=
  if srcva ≠ roundDown srcva pgsize then pure (-eInval)
  else
    match (found.map (fun r => k.vm.mem r.2.page r.2.idx)).or io.junk with
    | none => Prog.stop
    | some pte =>
        if pte &&& perm &&& 7#32 ≠ perm &&& 7#32 then pure (-eInval)
        else
          match found with
          | none => pure (-eInval)
          | some (pg, _) =>
              if HasFlag perm pteW ∧ ¬ HasFlag pte pteW then pure (-eInval)
              else if (k.envs rcv).envIpcDstva < utop then do
                let r ← pageInsertEnv c rcv pg (k.envs rcv).envIpcDstva perm
                if r ≠ 0 then pure r
                else do
                  Prog.modify (fun k => k.modifyEnv rcv (fun v => { v with envIpcPerm := perm }))
                  ipcDeliver cur rcv value
              else
                ipcDeliver cur rcv value

theorem sysIpcTrySend_page (hcur : k.curenv c = some cur) (hrcv : k.envOf c envid false = some rcv)
    (hrecv : (k.envs rcv).envIpcRecving = true) (hsrc : srcva < utop)
    (hds : (k.envs cur).envPgdir = some ds)
    (hlookup : (onVm (pageLookup ds srcva)).run k = .ret found k) :
    (sysIpcTrySend io c envid value srcva perm).run k =
      (sendFound io k c cur rcv value srcva perm found).run k := by
  unfold sysIpcTrySend
  rw [Prog.run_bind_ret (envid2env_run hrcv)]
  dsimp only
  rw [Prog.run_bind_ret (Prog.run_get k), if_neg (by rw [hrecv]; decide),
    Prog.run_bind_ret (theCurenv_run hcur), if_pos hsrc, Prog.run_bind_ret (thePgdir_run hds),
    Prog.run_bind_ret hlookup]
  rfl

theorem sysIpcTrySend_word (hcur : k.curenv c = some cur) (hrcv : k.envOf c envid false = some rcv)
    (hrecv : (k.envs rcv).envIpcRecving = true) (hsrc : ¬ srcva < utop) :
    (sysIpcTrySend io c envid value srcva perm).run k = (ipcDeliver cur rcv value).run k := by
  unfold sysIpcTrySend
  rw [Prog.run_bind_ret (envid2env_run hrcv)]
  dsimp only
  rw [Prog.run_bind_ret (Prog.run_get k), if_neg (by rw [hrecv]; decide),
    Prog.run_bind_ret (theCurenv_run hcur), if_neg hsrc]

/-- A page that is mapped is mapped once more, unless there is no room for a page table. -/
theorem pageInsertEnv_room (hm : Memory managed k) (hlive : k.Live rcv) {pg : Nat} {va : U32}
    (hva : va < utop) (hpg : k.Maps pg) (perm : U32) {d : Nat}
    (hd : (k.envs rcv).envPgdir = some d) :
    (k.vm.NoTable d va ∧ (pageInsertEnv c rcv pg va perm).run k = .ret (-eNoMem) k) ∨
    (¬ k.vm.NoTable d va ∧ ∃ m, (pageInsertEnv c rcv pg va perm).run k = .ret 0 (k.setVm m)) := by
  obtain ⟨free, hacc⟩ := hm.books.accounted
  have hdir : d ∈ envDirs k := mem_envDirs.mpr ⟨rcv, hlive.1, hd⟩
  have hfree : pg ∉ free := hacc.not_free (Or.inr hpg)
  unfold pageInsertEnv
  rw [Prog.run_bind_ret (thePgdir_run hd), Prog.run_bind_ret (Prog.run_get k)]
  have hmoves : (k.vm.NoTable d va ∧
      (pageInsert (k.thisCpu c) d pg va perm).run k.vm = .ret (-eNoMem) k.vm) ∨ _ :=
    pageInsert_moves hacc hdir hva hfree
  rcases hmoves with ⟨hno, hrun⟩ | ⟨hno, m, hrun, -⟩
  · exact Or.inl ⟨hno, onVm_ret hrun⟩
  · exact Or.inr ⟨hno, m, onVm_ret hrun⟩

open Classical in
/-- What is sent of a page that is mapped. -/
theorem sendFound_mapped (io : Inputs) (c cur : Nat) (value perm : U32) (hm : Memory managed k)
    (hlive : k.Live rcv) {t j : Nat} (hword : k.vm.mem t j = w) (hpg : k.Maps (pgnum w))
    (haligned : srcva = roundDown srcva pgsize) :
    Returns (sendFound io k c cur rcv value srcva perm (some (pgnum w, ⟨t, j⟩))) (fun r k' =>
      r = (if w &&& perm &&& 7#32 ≠ perm &&& 7#32 then -eInval
        else if (k.envs rcv).envIpcDstva < utop ∧ k.NoRoom rcv then -eNoMem else 0) ∧
      (r ≠ 0 → k' = k)) k := by
  obtain ⟨d, hd, -⟩ := hm.live_pgdir hlive
  have hroom : ∀ hdst : (k.envs rcv).envIpcDstva < utop,
      k.NoRoom rcv ↔ k.vm.NoTable d (k.envs rcv).envIpcDstva := fun _ =>
    ⟨fun ⟨d', hd', hno⟩ => by rwa [Option.some.inj (hd.symm.trans hd')], fun hno => ⟨d, hd, hno⟩⟩
  unfold sendFound
  rw [if_neg (not_not.mpr haligned)]
  simp only [Option.map_some, Option.some_or, hword]
  by_cases hlow : w &&& perm &&& 7#32 ≠ perm &&& 7#32
  · rw [if_pos hlow, if_pos hlow]
    exact ⟨rfl, fun _ => rfl⟩
  have hwrite : ¬ (HasFlag perm pteW ∧ ¬ HasFlag w pteW) := fun h =>
    h.2 ((low_flags.mp (not_not.mp hlow)).2.1 h.1)
  rw [if_neg hlow, if_neg hlow, if_neg hwrite]
  by_cases hdst : (k.envs rcv).envIpcDstva < utop
  · rw [if_pos hdst]
    rcases pageInsertEnv_room hm hlive hdst hpg perm hd with ⟨hno, hrun⟩ | ⟨hno, m, hrun⟩
    · rw [if_pos ⟨hdst, (hroom hdst).mpr hno⟩]
      refine returns_iff.mpr ⟨-eNoMem, k, ?_, rfl, fun _ => rfl⟩
      rw [Prog.run_bind_ret hrun]
      rfl
    · rw [if_neg (fun h => hno ((hroom hdst).mp h.2))]
      refine returns_bind (R := fun r k' => r = 0 ∧ k' = k.setVm m)
        (returns_iff.mpr ⟨0, _, hrun, rfl, rfl⟩) (fun r k' h => ?_)
      obtain ⟨rfl, rfl⟩ := h
      exact ⟨rfl, fun h => absurd rfl h⟩
  · rw [if_neg hdst, if_neg (fun h => hdst h.1)]
    exact ⟨rfl, fun h => absurd rfl h⟩

/-- What the code makes of a page that is mapped, and what the comment does. -/
theorem sendable_iff (perm : U32) (hw : k.entry cur (pdx srcva) (ptx srcva) = some w)
    (hpres : HasFlag w pteP) (haligned : srcva = roundDown srcva pgsize) :
    (w &&& perm &&& 7#32 = perm &&& 7#32 ↔ k.Sendable cur srcva perm) ↔
      (Appropriate perm → HasFlag w pteU ∨ (HasFlag perm pteW ∧ ¬ HasFlag w pteW)) ∧
      (¬ Appropriate perm → w &&& perm &&& 7#32 ≠ perm &&& 7#32) := by
  have hsend : k.Sendable cur srcva perm ↔
      Appropriate perm ∧ (HasFlag perm pteW → HasFlag w pteW) := by
    constructor
    · rintro ⟨-, happ, w', hw', hwrite⟩
      obtain rfl := Option.some.inj (hw.symm.trans hw')
      exact ⟨happ, hwrite⟩
    · rintro ⟨happ, hwrite⟩
      exact ⟨haligned, happ, w, hw, hwrite⟩
  rw [hsend]
  by_cases happ : Appropriate perm
  · have huser := happ.user
    rw [low_flags]
    tauto
  · tauto

/-- There is no page at `srcva`, and there is nothing where the pointer points. -/
theorem sendFound_unmapped (hjunk : io.junk = none) (haligned : srcva = roundDown srcva pgsize) :
    (sendFound io k c cur rcv value srcva perm none).run k = .stop k := by
  unfold sendFound
  rw [if_neg (not_not.mpr haligned), hjunk]
  rfl

/-- `page_lookup` finds no page. -/
theorem lookup_unmapped (hm : Memory managed k) (hd : ds ∈ envDirs k) (hva : srcva < utop)
    (hw : entryOf k.vm.mem ds (pdx srcva) (ptx srcva) = none) :
    (onVm (pageLookup ds srcva)).run k = .ret none k := by
  obtain ⟨free, hacc⟩ := hm.books.accounted
  exact onVm_ret (pageLookup_none
    (fun t ht => hacc.table_lt hd ((pdx_lt_userPdes srcva).mpr hva) ht) hw)

open Classical in
/-- A page is asked for that the sender may have. -/
theorem sends_page_iff (hm : Memory managed k) (hcur : k.curenv c = some cur) (hclive : k.Live cur)
    (hrcv : k.envOf c envid false = some rcv) (hlive : k.Live rcv)
    (hrecv : (k.envs rcv).envIpcRecving = true) (hsrc : srcva < utop) :
    k.SendsAsSpecified c cur envid value srcva perm ↔
      (srcva = roundDown srcva pgsize → ∃ w, k.entry cur (pdx srcva) (ptx srcva) = some w ∧
        (Appropriate perm → HasFlag w pteU ∨ (HasFlag perm pteW ∧ ¬ HasFlag w pteW)) ∧
        (¬ Appropriate perm → w &&& perm &&& 7#32 ≠ perm &&& 7#32)) := by
  obtain ⟨ds, hds, hdir⟩ := hm.live_pgdir hclive
  have hentry : k.entry cur (pdx srcva) (ptx srcva) =
      entryOf k.vm.mem ds (pdx srcva) (ptx srcva) := by
    unfold Kernel.entry
    rw [hds]
    rfl
  have hresult : k.sendResult c cur envid srcva perm =
      if ¬ k.Sendable cur srcva perm then -eInval
      else if (k.envs rcv).envIpcDstva < utop ∧ k.NoRoom rcv then -eNoMem else 0 := by
    unfold Kernel.sendResult
    simp only [hrcv, hrecv, hsrc, true_and, Bool.true_eq_false, if_false]
  unfold Kernel.SendsAsSpecified
  rw [hresult]
  by_cases haligned : srcva = roundDown srcva pgsize
  swap
  · -- the page does not matter
    obtain ⟨found, hlookup⟩ : ∃ found, (onVm (pageLookup ds srcva)).run k = .ret found k := by
      cases hw : entryOf k.vm.mem ds (pdx srcva) (ptx srcva) with
      | none => exact ⟨none, lookup_unmapped hm hdir hsrc hw⟩
      | some w =>
          obtain ⟨t, hlookup, -⟩ := hm.pageLookup_run hdir hsrc hw
          exact ⟨_, hlookup⟩
    refine iff_of_true (fun io => ?_) (fun h => absurd h haligned)
    refine returns_iff.mpr ⟨-eInval, k, ?_, ?_, fun _ => rfl⟩
    · rw [sysIpcTrySend_page hcur hrcv hrecv hsrc hds hlookup]
      unfold sendFound
      rw [if_pos haligned]
      rfl
    · rw [if_pos (fun h => haligned h.aligned)]
  cases hw : entryOf k.vm.mem ds (pdx srcva) (ptx srcva) with
  | none =>
      refine iff_of_false (fun h => ?_) (fun h => ?_)
      · have hreturns := h ⟨0, 0#32, none⟩
        obtain ⟨r, k', hrun, -⟩ := returns_iff.mp hreturns
        rw [sysIpcTrySend_page hcur hrcv hrecv hsrc hds (lookup_unmapped hm hdir hsrc hw),
          sendFound_unmapped rfl haligned] at hrun
        cases hrun
      · obtain ⟨w, hw', -⟩ := h haligned
        rw [hentry, hw] at hw'
        cases hw'
  | some w =>
      obtain ⟨t, hlookup, hword⟩ := hm.pageLookup_run hdir hsrc hw
      rw [hw] at hentry
      have hpres : HasFlag w pteP := by
        obtain ⟨t', -, -, hpres⟩ := entryOf_eq_some.mp hw
        exact hpres
      have hmaps : k.Maps (pgnum w) := ⟨ds, _, _, hdir, (pdx_lt_userPdes _).mpr hsrc, ptx_lt _,
        mappedPage_eq_some.mpr ⟨w, hw, rfl⟩⟩
      have hsend := sendable_iff perm hentry hpres haligned
      have hcode := fun io => sendFound_mapped io c cur value perm hm hlive hword hmaps haligned
      have hcond : (srcva = roundDown srcva pgsize →
          ∃ w, k.entry cur (pdx srcva) (ptx srcva) = some w ∧
            (Appropriate perm → HasFlag w pteU ∨ (HasFlag perm pteW ∧ ¬ HasFlag w pteW)) ∧
            (¬ Appropriate perm → w &&& perm &&& 7#32 ≠ perm &&& 7#32)) ↔
          (w &&& perm &&& 7#32 = perm &&& 7#32 ↔ k.Sendable cur srcva perm) := by
        rw [hsend]
        constructor
        · intro h
          obtain ⟨w', hw', hflags⟩ := h haligned
          obtain rfl := Option.some.inj (hentry.symm.trans hw')
          exact hflags
        · exact fun h _ => ⟨w, hentry, h⟩
      rw [hcond]
      constructor
      · intro h
        obtain ⟨r, k', hrun, hr, -⟩ := returns_iff.mp (h ⟨0, 0#32, none⟩)
        obtain ⟨r', k'', hrun', hr', -⟩ := returns_iff.mp (hcode ⟨0, 0#32, none⟩)
        rw [sysIpcTrySend_page hcur hrcv hrecv hsrc hds hlookup, hrun'] at hrun
        obtain rfl : r' = r := (Outcome.ret.inj hrun).1
        rw [hr] at hr'
        by_cases hlow : w &&& perm &&& 7#32 = perm &&& 7#32
        · refine iff_of_true hlow (by_contra fun hnot => ?_)
          rw [if_pos hnot, if_neg (not_not.mpr hlow)] at hr'
          split at hr' <;> exact absurd hr' (by decide)
        · refine iff_of_false hlow (fun hyes => ?_)
          rw [if_neg (not_not.mpr hyes), if_pos hlow] at hr'
          split at hr' <;> exact absurd hr' (by decide)
      · intro hiff io
        obtain ⟨r, k', hrun, hr, hkept⟩ := returns_iff.mp (hcode io)
        refine returns_iff.mpr ⟨r, k', ?_, hr.trans (if_congr (not_congr hiff) rfl rfl), hkept⟩
        rw [sysIpcTrySend_page hcur hrcv hrecv hsrc hds hlookup]
        exact hrun

/-- `sys_ipc_try_send` does what its comment says exactly if what is missing in the code does not
matter. -/
theorem sysIpcTrySend_specified_iff (h : Serving managed c cur k) :
    k.SendsAsSpecified c cur envid value srcva perm ↔ k.SendChecked c cur envid srcva perm := by
  have hcur := h.curenv
  have hm := h.memory
  unfold Kernel.SendChecked
  cases hrcv : k.envOf c envid false with
  | none =>
      refine iff_of_true (fun io => ?_) (fun _ h => nomatch h)
      have hresult : k.sendResult c cur envid srcva perm = -eBadEnv := by
        unfold Kernel.sendResult
        rw [hrcv]
      unfold sysIpcTrySend
      refine returns_iff.mpr ⟨-eBadEnv, k, ?_, hresult.symm, fun _ => rfl⟩
      rw [Prog.run_bind_ret (envid2env_none hcur hrcv)]
      rfl
  | some rcv =>
      have hlive : k.Live rcv := envOf_live h.order.procs h.inKernel hrcv
      have hclive : k.Live cur := ⟨h.order.procs.slot c cur hcur, h.order.owned_live hcur⟩
      cases hrecv : (k.envs rcv).envIpcRecving with
      | false =>
          have hresult : k.sendResult c cur envid srcva perm = -eIpcNotRecv := by
            unfold Kernel.sendResult
            simp only [hrcv, hrecv, if_true]
          refine iff_of_true (fun io => ?_) (fun rcv' heq hrecv' => ?_)
          · exact returns_iff.mpr ⟨-eIpcNotRecv, k, sysIpcTrySend_refused hrcv hrecv,
              hresult.symm, fun _ => rfl⟩
          · obtain rfl := Option.some.inj heq
            exact absurd (hrecv.symm.trans hrecv') (by decide)
      | true =>
          by_cases hsrc : srcva < utop
          · rw [sends_page_iff h.memory hcur hclive hrcv hlive hrecv hsrc]
            constructor
            · intro hpage rcv' _ _ _ haligned
              exact hpage haligned
            · exact fun hall => hall rcv rfl hrecv hsrc
          · have hresult : k.sendResult c cur envid srcva perm = 0 := by
              unfold Kernel.sendResult
              simp only [hrcv, hrecv, hsrc, false_and, if_false]
              rfl
            refine iff_of_true (fun io => ?_) (fun _ _ _ h => absurd h hsrc)
            have hrun : (sysIpcTrySend io c envid value srcva perm).run k = .ret 0 _ :=
              (sysIpcTrySend_word hcur hrcv hrecv hsrc).trans rfl
            exact returns_iff.mpr ⟨0, _, hrun, hresult.symm, fun h => absurd rfl h⟩

end Sends

/-! ## A page that is not there -/

/-- Environment 0 waits for a message with a page. -/
def receiverWaits : List Event := [.start 0, callEvent 0 13#32 0x200000#32 0#32 0#32 0#32 0#32]

/-- Environment 1 sends it the page at `0x200000`. -/
def sendAbsent : Trapframe := syscallTf 12#32 0x1000#32 1#32 0x200000#32 7#32 0#32

theorem receiverWaits_clean {ev : Event} (hev : ev ∈ receiverWaits) (k : Kernel) : ev.Clean k := by
  rcases List.mem_cons.mp hev with rfl | hev
  · exact (start_clean k 0).1
  · obtain rfl := List.mem_singleton.mp hev
    have hcall : (syscallTf 13#32 0x200000#32 0#32 0#32 0#32 0#32).call =
        some ⟨.ipcRecv, 0x200000#32, 0#32, 0#32, 0#32, 0#32⟩ := rfl
    refine trap_clean hcall (fun _ _ op hop => ?_) (fun _ _ op hop => ?_)
    · cases hop <;> contradiction
    · cases hop <;> contradiction

/-- The sender has no page at `0x200000`. -/
theorem sends_absent : ∃ managed k, Serving managed 0 1 k ∧ k.envOf 0 0x1000#32 false = some 0 ∧
    (k.envs 0).envIpcRecving = true ∧
    k.entry 1 (pdx 0x200000#32) (ptx 0x200000#32) = none := by
  have hsome : (execution 16 1 2 receiverWaits).any (fun k =>
      decide (k.curenv 0 = some 1 ∧ (k.envs 1).envStatus ≠ .dying) &&
        decide (((k.traps 0).saveTf 1 sendAbsent).envOf 0 0x1000#32 false = some 0 ∧
          (((k.traps 0).saveTf 1 sendAbsent).envs 0).envIpcRecving = true ∧
          ((k.traps 0).saveTf 1 sendAbsent).entry 1 (pdx 0x200000#32) (ptx 0x200000#32) =
            none)) = true := by decide +kernel
  obtain ⟨k, hk, hthen⟩ := (Option.any_eq_true _ _).mp hsome
  obtain ⟨hruns, hthen⟩ := Bool.and_eq_true_iff.mp hthen
  obtain ⟨hcur, halive⟩ := of_decide_eq_true hruns
  have hserves : (Event.trap 0 sendAbsent ⟨0, 0#32, none⟩).Serves k
      ((k.traps 0).saveTf 1 sendAbsent) 0
      ⟨.ipcTrySend, 0x1000#32, 1#32, 0x200000#32, 7#32, 0#32⟩ := .trap hcur halive rfl rfl
  have hrun : RunOf {p | 0 < p ∧ p < 16} (fun k ev => ev.Clean k) k :=
    execution_runOf (by decide) (by decide) (fun _ hev k => receiverWaits_clean hev k) hk
  obtain ⟨-, hserving⟩ := (hrun.sound (fun _ _ hok => hok)).serving hserves hcur
  exact ⟨_, _, hserving, of_decide_eq_true hthen⟩

theorem sysIpcTrySend_specified_absent : ∃ k : Kernel, k.envOf 0 0x1000#32 false = some 0 ∧
    (k.SendsAsSpecified 0 1 0x1000#32 1#32 0x200000#32 7#32 ↔
      k.SendChecked 0 1 0x1000#32 0x200000#32 7#32) := by
  obtain ⟨managed, k, hserving, hrcv, -⟩ := sends_absent
  exact ⟨k, hrcv, sysIpcTrySend_specified_iff hserving⟩

/-- The flags of a page that is not there are looked at. -/
theorem not_sendsAsSpecified : ¬ ∀ managed k c cur (envid value srcva perm : U32),
    Serving managed c cur k → k.SendsAsSpecified c cur envid value srcva perm := by
  intro hall
  obtain ⟨managed, k, hserving, hrcv, hrecv, hentry⟩ := sends_absent
  have hlive : k.Live 0 := envOf_live hserving.order.procs hserving.inKernel hrcv
  have hclive : k.Live 1 := ⟨by decide, hserving.order.owned_live hserving.curenv⟩
  have hspec := hall managed k 0 1 0x1000#32 1#32 0x200000#32 7#32 hserving
  rw [sends_page_iff hserving.memory hserving.curenv hclive hrcv hlive hrecv (by decide)] at hspec
  obtain ⟨w, hw, -⟩ := hspec (by decide)
  rw [hentry] at hw
  cases hw

end Jos

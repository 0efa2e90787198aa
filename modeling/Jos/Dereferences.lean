import Jos.Beside
import Jos.ExceptionStack
import Jos.UserRanges
import Jos.UserReads

/-!
# What system calls dereference

Four system calls follow addresses that their caller passes.  `sys_cputs` and
`sys_pkt_try_send` check the range first; `sys_env_set_trapframe` and `sys_pkt_recv`
check nothing.  The check of a range that goes past the end of the address space looks
at too few pages, and `sys_cputs` reads up to a zero byte that need not be in its range.

`syscall_protects_iff` says, for every call, when the kernel stays with addresses that
it has checked and that the caller may access.
-/

namespace Jos

open Programs UserRanges

/-- Processor `c` executes a system call of environment `cur`, in the address space `d`
of the environment. -/
structure Calling (c cur d : Nat) (k : Kernel) : Prop where
  lock : k.kernelLock = some c
  curenv : k.curenv c = some cur
  pgdir : (k.envs cur).envPgdir = some d
  loaded : k.vm.cr3 c = d
  tables : ∀ i t, i < npdentries → tableOf k.vm.mem d i = some t → t < k.vm.npages

/-! ## Accesses behind checks -/

/-- The flags that an access of user code needs. -/
def accessFlags (write : Bool) : U32 := if write then pteU ||| pteW else pteU

/-- User code in the address space `d` may access the whole range. -/
def MayAccess (k : Kernel) (d : Nat) (va len : U32) (write : Bool) : Prop :=
  ∀ x, x ∈ range va len → Accessible k.vm d (accessFlags write) x

/-- The address lies in a range that has been checked and that the environment may
access. -/
def Guarded (k : Kernel) (d : Nat) (before : List MemEvent) (va : U32) (write : Bool) : Prop :=
  ∃ s len perm, MemEvent.checked s len perm ∈ before ∧ va.toNat ∈ range s len ∧
    MayAccess k d s len write

/-- Every access is guarded by what came before it; the latest is the first. -/
def AllGuarded (k : Kernel) (d : Nat) : List MemEvent → Prop
  | [] => True
  | .checked _ _ _ :: before => AllGuarded k d before
  | .access va write :: before => Guarded k d before va write ∧ AllGuarded k d before

/-- The descriptor that `e1000_receive` looks at has a packet without errors. -/
def Kernel.PacketReady (k : Kernel) : Prop :=
  (k.e1000.rxDescArray k.e1000.next).status &&& statDd ≠ 0#8 ∧
    (k.e1000.rxDescArray k.e1000.next).errors = 0#8

/-- The ranges that a call dereferences once it gets that far. -/
inductive Hands (k : Kernel) (c : Nat) (a1 a2 : U32) :
    SyscallNo → U32 → U32 → Bool → Prop where
  | cputs : Hands k c a1 a2 .cputs a1 a2 false
  | pktTrySend : Hands k c a1 a2 .pktTrySend a1 a2 false
  | setTrapframe {e : Nat} (he : k.envOf c a1 true = some e) :
      Hands k c a1 a2 .envSetTrapframe a2 68#32 true
  | pktLength (hready : k.PacketReady) : Hands k c a1 a2 .pktRecv a2 4#32 true
  | packet (hready : k.PacketReady) : Hands k c a1 a2 .pktRecv a1
      ((k.e1000.rxDescArray k.e1000.next).length.setWidth 32) true

/-- A check has failed at `addr`. -/
def Kernel.failedAt (k : Kernel) (addr : U32) : Kernel :=
  k.setVm { k.vm with userMemCheckAddr := addr }

/-- The call ends in `env_destroy` of its caller.  But for `user_mem_check_addr`,
`env_destroy` finds everything as it was. -/
structure Refused (c cur : Nat) (k : Kernel) (p : Prog Kernel Int) : Prop where
  destroys : ∃ addr, (p.run k).state = ((envDestroy c cur).run (k.failedAt addr)).state
  silent : (p.run k).state.trace = k.trace
  stays : ∀ r k', p.run k ≠ .ret r k'
  gone : ∀ k', p.run k = .exit k' → (k'.envs cur).envStatus = .free

/-- The kernel dereferences only what it has checked and the caller may access, and
refuses a call that passes something else. -/
structure Protects (io : Inputs) (c cur d : Nat) (no a1 a2 a3 a4 a5 : U32) (k : Kernel) :
    Prop where
  guarded : ∃ used, ((syscall io c no a1 a2 a3 a4 a5).run k).state.trace = used ++ k.trace ∧
    AllGuarded k d used
  refuses : ∀ s va len write, syscallNo no = some s → Hands k c a1 a2 s va len write →
    ¬ MayAccess k d va len write → Refused c cur k (syscall io c no a1 a2 a3 a4 a5)

/-- A range that is empty, or ends before the last page of the address space. -/
def InSpace (va len : U32) : Prop := len = 0#32 ∨ va.toNat + len.toNat ≤ 2 ^ 32 - 4096

/-- A range with a zero byte. -/
def HasZero (k : Kernel) (c : Nat) (va len : U32) : Prop :=
  ∃ n, n < len.toNat ∧ k.userByte c (va + BitVec.ofNat 32 n) = some 0#8

/-- When a call protects its caller from the kernel. -/
def Kernel.Guards (k : Kernel) (c : Nat) (a1 a2 : U32) : SyscallNo → Prop
  | .cputs => k.Passes c a1 a2 (pteU ||| pteP) →
      InSpace a1 a2 ∧ (a1 = 0#32 ∨ HasZero k c a1 a2)
  | .pktTrySend => k.Passes c a1 a2 pteU → InSpace a1 a2
  | .envSetTrapframe => k.envOf c a1 true = none
  | .pktRecv => ¬ k.PacketReady
  | _ => True

section Traces

variable {k : Kernel} {c d : Nat} {s len perm va : U32} {write : Bool}
  {used before : List MemEvent}

theorem Guarded.mono {after : List MemEvent} (h : Guarded k d before va write)
    (hsub : before ⊆ after) : Guarded k d after va write := by
  obtain ⟨s, len, perm, hmem, hin, hmay⟩ := h
  exact ⟨s, len, perm, hsub hmem, hin, hmay⟩

theorem AllGuarded.guarded (h : AllGuarded k d used) (hmem : MemEvent.access va write ∈ used) :
    Guarded k d used va write := by
  induction used with
  | nil => cases hmem
  | cons ev used ih =>
      cases ev with
      | checked s len perm =>
          rcases List.mem_cons.mp hmem with heq | hrest
          · cases heq
          · exact (ih h hrest).mono (List.subset_cons_self _ _)
      | access va' write' =>
          rcases List.mem_cons.mp hmem with heq | hrest
          · cases heq
            exact h.1.mono (List.subset_cons_self _ _)
          · exact (ih h.2 hrest).mono (List.subset_cons_self _ _)

/-- Accesses inside a range that is checked at first, and that may be accessed. -/
theorem allGuarded_of_inside (hmay : MayAccess k d s len write)
    (hin : ∀ ev, ev ∈ used → ∃ va, ev = .access va write ∧ va.toNat ∈ range s len) :
    AllGuarded k d (used ++ [.checked s len perm]) := by
  induction used with
  | nil => exact trivial
  | cons ev used ih =>
      obtain ⟨va, rfl, hva⟩ := hin ev List.mem_cons_self
      refine ⟨⟨s, len, perm, List.mem_append_right _ List.mem_cons_self, hva, hmay⟩, ih ?_⟩
      exact fun ev' hev' => hin ev' (List.mem_cons_of_mem _ hev')

/-- With one check in front, every access is in its range. -/
theorem AllGuarded.inside (h : AllGuarded k d (used ++ [.checked s len perm]))
    (hused : ∀ ev, ev ∈ used → ∃ va write, ev = .access va write)
    (hmem : MemEvent.access va write ∈ used) :
    va.toNat ∈ range s len ∧ MayAccess k d s len write := by
  obtain ⟨s', len', perm', hcheck, hin, hmay⟩ := h.guarded (List.mem_append_left _ hmem)
  rcases List.mem_append.mp hcheck with haccess | hlast
  · obtain ⟨_, _, heq⟩ := hused _ haccess
    cases heq
  · cases List.mem_singleton.mp hlast
    exact ⟨hin, hmay⟩

/-- Nothing guards the first access of all. -/
theorem not_allGuarded_first {later : List MemEvent} :
    ¬ AllGuarded k d (later ++ [.access va write]) := by
  induction later with
  | nil =>
      rintro ⟨⟨s, len, perm, hmem, -⟩, -⟩
      cases hmem
  | cons ev later ih =>
      cases ev with
      | checked _ _ _ => exact ih
      | access _ _ => exact fun h => ih h.2

end Traces

/-! ## The check -/

section Check

variable {k : Kernel} {c cur d : Nat} {va len perm : U32} {write : Bool}

theorem accessible_of_or {m : PhysMem} {perm perm' : U32} {x : Nat}
    (h : Accessible m d (perm ||| perm') x) : Accessible m d perm' x := by
  obtain ⟨hlt, w, hw, hflags⟩ := h
  refine ⟨hlt, w, hw, ?_⟩
  have hor : perm' = (perm ||| perm') &&& perm' := by
    refine BitVec.eq_of_getLsbD_eq (fun i hi => ?_)
    simp only [BitVec.getLsbD_and, BitVec.getLsbD_or]
    cases perm'.getLsbD i with
    | false => simp
    | true => simp
  calc w &&& perm' = w &&& ((perm ||| perm') &&& perm') := by rw [← hor]
    _ = w &&& (perm ||| perm') &&& perm' := (BitVec.and_assoc _ _ _).symm
    _ = perm' := by rw [hflags, ← hor]

/-- What may be accessed does not end in the last page. -/
theorem MayAccess.inSpace (h : MayAccess k d va len write) : InSpace va len := by
  by_cases hlen : len = 0#32
  · exact Or.inl hlen
  refine Or.inr (Nat.le_of_not_lt (fun hlast => ?_))
  exact range_not_accessible hlen hlast h

/-- A range that ends in time may be read once it has passed the check. -/
theorem mayAccess_of_checked (hin : InSpace va len)
    (hall : ∀ x, va.toNat / 4096 * 4096 ≤ x → x < (roundUp (va + len) pgsize).toNat →
      Accessible k.vm d (perm ||| pteU) x) : MayAccess k d va len false := by
  rintro x ⟨hle, hlt⟩
  rcases hin with rfl | hspace
  · exact absurd hlt (Nat.not_lt.mpr hle)
  have hend := roundUp_end va len
  exact accessible_of_or (hall x (by omega) (by omega))

/-- The assertion on user memory passes and is noted, or it destroys the environment. -/
theorem Calling.assert (h : Calling c cur d k) (va len perm : U32) :
    (k.Passes c va len perm ∧
      (userMemAssert c cur va len perm).run k =
        .ret () (k.log (.checked va len (perm ||| pteU))) ∧
      (InSpace va len → MayAccess k d va len false)) ∨
    (¬ k.Passes c va len perm ∧ ∃ addr, (userMemAssert c cur va len perm).run k =
      (envDestroy c cur).run (k.failedAt addr)) := by
  rcases userMemCheck_spec ⟨d, h.tables⟩ va len (perm ||| pteU) with
    ⟨hrun, hall⟩ | ⟨q, hrun, -⟩
  · exact Or.inl ⟨⟨cur, d, k.vm, h.curenv, h.pgdir, hrun⟩, userMemAssert_passes h.pgdir hrun,
      fun hin => mayAccess_of_checked hin hall⟩
  · refine Or.inr ⟨?_, if q < va then va else q, ?_⟩
    · rintro ⟨e, d', m, hcur, hd, hpass⟩
      obtain rfl := Option.some.inj (h.curenv.symm.trans hcur)
      obtain rfl := Option.some.inj (h.pgdir.symm.trans hd)
      rw [hrun] at hpass
      exact absurd (Outcome.ret.inj hpass).1 (by decide)
    · have hpgdir : (thePgdir cur).run k = .ret d k := by
        unfold thePgdir
        rw [Prog.run_bind_ret (Prog.run_get k), h.pgdir]
        rfl
      unfold userMemAssert
      rw [Prog.run_bind_ret hpgdir, Prog.run_bind_ret (onVm_ret hrun), if_pos (by decide)]
      rfl

/-- A call that has failed the check is refused. -/
theorem Calling.refused (h : Calling c cur d k) {f : Unit → Prog Kernel Int} {addr : U32}
    (hrun : (userMemAssert c cur va len perm).run k = (envDestroy c cur).run (k.failedAt addr)) :
    Refused c cur k (theCurenv c >>= fun cur => userMemAssert c cur va len perm >>= f) := by
  have hself : wp (envDestroy c cur) (Partial (fun _ _ => False) (fun k' =>
      ∃ k₁, Dies c cur (k.failedAt addr) k₁ ∧ Yields k₁ c k')) (k.failedAt addr) :=
    envDestroy_self (R := fun _ _ => False) h.lock h.curenv
  have hsilent : ((envDestroy c cur).run (k.failedAt addr)).state.trace = k.trace :=
    beside_envDestroy (R := fun side => side.2.2 = k.trace) _ rfl
  -- nothing is done behind `env_destroy`
  cases hend : (envDestroy c cur).run (k.failedAt addr) with
  | ret a k' => exact (wp_ret hself hend).elim
  | exit k' =>
      have hwhole : (theCurenv c >>= fun cur => userMemAssert c cur va len perm >>= f).run k =
          .exit k' := by
        rw [Prog.run_bind_ret (theCurenv_run h.curenv), Prog.run_bind, hrun, hend]
      rw [hend] at hsilent
      refine ⟨⟨addr, by rw [hwhole, hend]; rfl⟩, by rw [hwhole]; exact hsilent,
        fun r k₁ hret => ?_, fun k₁ hexit => ?_⟩
      · rw [hwhole] at hret
        cases hret
      · rw [hwhole] at hexit
        cases hexit
        obtain ⟨k₂, hdies, hyields⟩ := wp_exited hself hend
        exact (hdies.destroyed hyields).free
  | stop k' =>
      have hwhole : (theCurenv c >>= fun cur => userMemAssert c cur va len perm >>= f).run k =
          .stop k' := by
        rw [Prog.run_bind_ret (theCurenv_run h.curenv), Prog.run_bind, hrun, hend]
      rw [hend] at hsilent
      refine ⟨⟨addr, by rw [hwhole, hend]; rfl⟩, by rw [hwhole]; exact hsilent,
        fun r k₁ hret => ?_, fun k₁ hexit => ?_⟩
      · rw [hwhole] at hret
        cases hret
      · rw [hwhole] at hexit
        cases hexit

end Check

/-! ## `sys_cputs` -/

section Strings

variable {k : Kernel} {c cur d : Nat} {s len : U32}

theorem loadByte_faults {va : U32} (h : k.userByte c va = none) :
    (loadByte c va).run k = .stop (k.log (.access va false)) := by
  have hp : (k.log (.access va false)).vm.kernelPage
      ((k.log (.access va false)).vm.cr3 c) va false = none := Option.map_eq_none_iff.mp h
  unfold loadByte peekByte
  rw [Prog.run_bind_ret (Prog.run_modify _ k), Prog.run_bind_ret (Prog.run_get _), hp]
  rfl

/-- However the loop ends, it has looked at bytes from `p` on, and if it does not return it
has looked at one that is not there, or at all it had fuel for. -/
theorem putString_used (k : Kernel) (c fuel : Nat) (p : U32) (precision : Int) :
    ∃ used, ((putString c fuel p precision).run k).state.trace = used ++ k.trace ∧
      (∀ ev, ev ∈ used → ∃ j, j < fuel ∧ ev = .access (p + BitVec.ofNat 32 j) false) ∧
      ((∃ k', (putString c fuel p precision).run k = .ret () k') ∨
        (∃ j, j < fuel ∧ .access (p + BitVec.ofNat 32 j) false ∈ used ∧
          k.userByte c (p + BitVec.ofNat 32 j) = none) ∨
        ∀ j, j < fuel → .access (p + BitVec.ofNat 32 j) false ∈ used) := by
  have hzero : ∀ q : U32, q + BitVec.ofNat 32 0 = q := fun q => by simp
  induction fuel generalizing p precision k with
  | zero =>
      exact ⟨[], rfl, fun ev h => absurd h List.not_mem_nil,
        Or.inr (Or.inr (fun j hj => absurd hj (Nat.not_lt_zero j)))⟩
  | succ fuel ih =>
      cases hbyte : k.userByte c p with
      | none =>
          have hrun : (putString c (fuel + 1) p precision).run k =
              .stop (k.log (.access p false)) := by
            unfold putString
            rw [Prog.run_bind, loadByte_faults hbyte]
          rw [hrun]
          refine ⟨[.access p false], rfl, fun ev hev => ?_, Or.inr (Or.inl ⟨0, ?_, ?_, ?_⟩)⟩
          · exact ⟨0, Nat.succ_pos fuel, by rw [hzero, List.mem_singleton.mp hev]⟩
          · exact Nat.succ_pos fuel
          · rw [hzero]
            exact List.mem_singleton_self _
          · rw [hzero]
            exact hbyte
      | some b =>
          unfold putString
          rw [Prog.run_bind_ret (loadByte_reads hbyte)]
          by_cases hgo : b ≠ 0#8 ∧ (precision < 0 ∨ precision - 1 ≥ 0)
          · rw [if_pos hgo, Prog.run_bind_ret (Prog.run_modify _ _)]
            obtain ⟨used, htrace, hused, hend⟩ := ih ((k.log (.access p false)).putch b)
              (p + 1#32) (if precision < 0 then precision else precision - 1)
            have hnext : ∀ j, MemEvent.access (p + BitVec.ofNat 32 (j + 1)) false ∈
                used ++ [.access p false] ↔ MemEvent.access (p + 1#32 + BitVec.ofNat 32 j) false ∈
                  used ∨ p + BitVec.ofNat 32 (j + 1) = p := by
              intro j
              rw [List.mem_append, List.mem_singleton, add_one_ofNat]
              simp
            refine ⟨used ++ [.access p false], ?_, fun ev hev => ?_, ?_⟩
            · rw [htrace, List.append_assoc]
              rfl
            · rcases List.mem_append.mp hev with hev | hev
              · obtain ⟨j, hj, rfl⟩ := hused ev hev
                exact ⟨j + 1, Nat.succ_lt_succ hj, by rw [add_one_ofNat]⟩
              · exact ⟨0, Nat.succ_pos fuel, by rw [hzero, List.mem_singleton.mp hev]⟩
            · rcases hend with hret | ⟨j, hj, hmem, hnone⟩ | hall
              · exact Or.inl hret
              · refine Or.inr (Or.inl ⟨j + 1, Nat.succ_lt_succ hj, (hnext j).mpr (Or.inl hmem), ?_⟩)
                rw [← add_one_ofNat]
                exact hnone
              · refine Or.inr (Or.inr (fun j hj => ?_))
                cases j with
                | zero =>
                    refine List.mem_append_right _ ?_
                    rw [hzero]
                    exact List.mem_singleton_self _
                | succ j => exact (hnext j).mpr (Or.inl (hall j (Nat.lt_of_succ_lt_succ hj)))
          · rw [if_neg hgo]
            refine ⟨[.access p false], rfl, fun ev hev => ?_, Or.inl ⟨_, rfl⟩⟩
            exact ⟨0, Nat.succ_pos fuel, by rw [hzero, List.mem_singleton.mp hev]⟩

theorem Calling.readable (h : Calling c cur d k) {va perm : U32}
    (hva : Accessible k.vm d perm va.toNat) : ∃ b, k.userByte c va = some b := by
  obtain ⟨-, w, hw, -⟩ := hva
  rw [BitVec.ofNat_toNat, BitVec.setWidth_eq, ← h.loaded] at hw
  have hpage : k.vm.kernelPage (k.vm.cr3 c) va false = some (pgnum w) :=
    kernelPage_eq_some.mpr ⟨w, hw, rfl, fun hwrite => absurd hwrite (by decide)⟩
  exact ⟨_, Option.map_eq_some_iff.mpr ⟨_, hpage, rfl⟩⟩

/-- A range that may be read is read up to its zero byte. -/
theorem Calling.hasEnd (h : Calling c cur d k) (hmay : MayAccess k d s len false)
    (hzero : HasZero k c s len) : HasEnd k c s len := by
  obtain ⟨n, hn, hbyte⟩ := hzero
  have hspace : s.toNat + len.toNat ≤ 2 ^ 32 - 4096 := by
    rcases hmay.inSpace with rfl | hspace
    · exact absurd hn (Nat.not_lt_zero n)
    · exact hspace
  refine ⟨n, hn, by omega, fun j hj => ?_, hbyte⟩
  have hj' : (s + BitVec.ofNat 32 j).toNat = s.toNat + j := toNat_add_ofNat (by omega)
  exact h.readable (hmay _ ⟨by omega, by omega⟩)

/-- Bytes that are all guarded by the check of the range end with a zero byte in it. -/
theorem Calling.hasZero (h : Calling c cur d k) {perm : U32} {used : List MemEvent}
    (htrace : ((putString c (2 ^ 32) s len.toInt).run (k.log (.checked s len perm))).state.trace =
      used ++ .checked s len perm :: k.trace)
    (hguarded : AllGuarded k d (used ++ [.checked s len perm])) : HasZero k c s len := by
  obtain ⟨used', htrace', hused, hend⟩ :=
    putString_used (k.log (.checked s len perm)) c (2 ^ 32) s len.toInt
  obtain rfl : used = used' := List.append_cancel_right (htrace.symm.trans htrace')
  have hinside : ∀ j, MemEvent.access (s + BitVec.ofNat 32 j) false ∈ used →
      (s + BitVec.ofNat 32 j).toNat ∈ range s len ∧ MayAccess k d s len false := by
    intro j hmem
    refine hguarded.inside (fun ev hev => ?_) hmem
    obtain ⟨i, -, rfl⟩ := hused ev hev
    exact ⟨_, _, rfl⟩
  rcases hend with ⟨k', hrun⟩ | ⟨j, -, hmem, hnone⟩ | hall
  · obtain ⟨n, hn, hscans, evs, hevs, hmem⟩ := putString_ret hrun
    rw [hrun] at htrace
    obtain rfl : used = evs := List.append_cancel_right (htrace.symm.trans hevs)
    obtain ⟨hle, hlt⟩ := (hinside n ((hmem _).mpr ⟨n, Nat.le_refl n, rfl⟩)).1
    have hfits : s.toNat + n < 2 ^ 32 := by
      -- beyond the end of the address space the loop is below the range
      by_contra hover
      have hs := s.isLt
      rw [BitVec.toNat_add, BitVec.toNat_ofNat] at hle
      omega
    rw [toNat_add_ofNat hfits] at hlt
    refine ⟨n, by omega, hscans.ends.resolve_right (fun hprec => ?_)⟩
    -- a precision that is not negative is the length
    rw [BitVec.toInt_eq_toNat_cond] at hprec
    split at hprec
    · omega
    · have hlen := len.isLt
      omega
  · obtain ⟨hin, hmay⟩ := hinside j hmem
    obtain ⟨b, hb⟩ := h.readable (hmay _ hin)
    exact absurd (hb.symm.trans hnone) (by simp)
  · -- the last address of all may not be accessed
    have hs := s.isLt
    obtain ⟨hin, hmay⟩ := hinside (2 ^ 32 - 1 - s.toNat) (hall _ (by omega))
    refine absurd (hmay _ hin) (not_accessible ?_)
    rw [toNat_add_ofNat (by omega)]
    omega

/-- What `sys_cputs` does once its range has passed the check. -/
theorem cputs_run {perm : U32} (hcur : k.curenv c = some cur)
    (hrun : (userMemAssert c cur s len (pteU ||| pteP)).run k =
      .ret () (k.log (.checked s len perm))) :
    ((sysCputs c s len >>= fun _ => pure (0 : Int)).run k).state =
      ((if s = 0#32 then putNull len.toInt else putString c (2 ^ 32) s len.toInt).run
        (k.log (.checked s len perm))).state := by
  have hcputs : (sysCputs c s len).run k = (if s = 0#32 then putNull len.toInt
      else putString c (2 ^ 32) s len.toInt).run (k.log (.checked s len perm)) := by
    unfold sysCputs
    rw [Prog.run_bind_ret (theCurenv_run hcur), Prog.run_bind_ret hrun]
  rw [Prog.run_bind, hcputs]
  cases (if s = 0#32 then putNull len.toInt else putString c (2 ^ 32) s len.toInt).run
      (k.log (.checked s len perm)) with
  | ret a k' => rfl
  | exit k' => rfl
  | stop k' => rfl

/-- A program that starts with a check keeps to what it has checked, and is refused if it
may not. -/
def KeepsTo (k : Kernel) (c cur d : Nat) (s len : U32) (p : Prog Kernel Int) : Prop :=
  (∃ used, (p.run k).state.trace = used ++ k.trace ∧ AllGuarded k d used) ∧
    (¬ MayAccess k d s len false → Refused c cur k p)

/-- Without the check nothing is accessed. -/
theorem Refused.keepsTo {q : Prog Kernel Int} (h : Refused c cur k q) :
    KeepsTo k c cur d s len q := ⟨⟨[], h.silent, trivial⟩, fun _ => h⟩

/-- A program that has noted a check is not refused. -/
theorem not_refused {q : Prog Kernel Int} {perm : U32} {used : List MemEvent}
    (htrace : (q.run k).state.trace = used ++ .checked s len perm :: k.trace) :
    ¬ Refused c cur k q := by
  intro hrefused
  have hlen := congrArg List.length (htrace.symm.trans hrefused.silent)
  rw [List.length_append, List.length_cons] at hlen
  omega

theorem Calling.cputs_iff (h : Calling c cur d k) :
    KeepsTo k c cur d s len (sysCputs c s len >>= fun _ => pure 0) ↔
      (k.Passes c s len (pteU ||| pteP) → InSpace s len ∧ (s = 0#32 ∨ HasZero k c s len)) := by
  rcases h.assert s len (pteU ||| pteP) with ⟨hpass, hrun, hmay⟩ | ⟨hno, addr, hrun⟩
  · have hend := cputs_run h.curenv hrun
    have hone : ∀ used : List MemEvent, used ++ .checked s len (pteU ||| pteP ||| pteU) ::
        k.trace = (used ++ [.checked s len (pteU ||| pteP ||| pteU)]) ++ k.trace :=
      fun used => (List.append_assoc used [_] k.trace).symm
    by_cases hs : s = 0#32
    · -- a null pointer is not followed
      rw [if_pos hs] at hend
      have hprint : ∃ k', (putNull len.toInt).run
          (k.log (.checked s len (pteU ||| pteP ||| pteU))) = .ret () k' ∧
            k'.trace = (k.log (.checked s len (pteU ||| pteP ||| pteU))).trace := putNull_trace
      obtain ⟨k', hnull, htrace⟩ := hprint
      rw [hnull] at hend
      have hall : ((sysCputs c s len >>= fun _ => pure (0 : Int)).run k).state.trace =
          [] ++ .checked s len (pteU ||| pteP ||| pteU) :: k.trace := by
        rw [hend]
        exact htrace
      constructor
      · rintro ⟨-, hrefuses⟩ -
        refine ⟨?_, Or.inl hs⟩
        by_contra hin
        exact not_refused hall (hrefuses (fun hmay => hin hmay.inSpace))
      · intro hcond
        exact ⟨⟨[_], hall, trivial⟩, fun hnot => absurd (hmay (hcond hpass).1) hnot⟩
    · rw [if_neg hs] at hend
      obtain ⟨used, htrace, hused, -⟩ := putString_used
        (k.log (.checked s len (pteU ||| pteP ||| pteU))) c (2 ^ 32) s len.toInt
      have hall : ((sysCputs c s len >>= fun _ => pure (0 : Int)).run k).state.trace =
          used ++ .checked s len (pteU ||| pteP ||| pteU) :: k.trace := by
        rw [hend]
        exact htrace
      constructor
      · rintro ⟨⟨used', htrace', hguarded⟩, hrefuses⟩ -
        have hin : InSpace s len := by
          by_contra hin
          exact not_refused hall (hrefuses (fun hmay => hin hmay.inSpace))
        obtain rfl : used' = used ++ [.checked s len (pteU ||| pteP ||| pteU)] :=
          List.append_cancel_right (htrace'.symm.trans (hall.trans (hone used)))
        exact ⟨hin, Or.inr (h.hasZero htrace hguarded)⟩
      · intro hcond
        obtain ⟨hin, hzero⟩ := hcond hpass
        have hreads : HasEnd (k.log (.checked s len (pteU ||| pteP ||| pteU))) c s len :=
          h.hasEnd (hmay hin) (hzero.resolve_left hs)
        obtain ⟨u, k', hprint, evs, hevs, hinside⟩ :=
          returns_iff.mp (putString_inside.mpr hreads)
        rw [hprint] at htrace
        obtain rfl : used = evs := List.append_cancel_right (htrace.symm.trans hevs)
        refine ⟨⟨used ++ [_], hall.trans (hone used), allGuarded_of_inside (hmay hin) ?_⟩,
          fun hnot => absurd (hmay hin) hnot⟩
        intro ev hev
        obtain ⟨j, -, rfl⟩ := hused ev hev
        exact ⟨_, rfl, (hinside _ _ hev).2⟩
  · refine iff_of_true (Refused.keepsTo ?_) (fun hpass => absurd hpass hno)
    have hcalls : (sysCputs c s len >>= fun _ => pure (0 : Int)) = theCurenv c >>= fun cur =>
        userMemAssert c cur s len (pteU ||| pteP) >>= fun _ =>
          (if s = 0#32 then putNull len.toInt else putString c (2 ^ 32) s len.toInt) >>=
            fun _ => pure 0 := by
      unfold sysCputs
      rw [Prog.bind_assoc]
      exact Prog.bind_congr (fun cur => Prog.bind_assoc _ _ _)
    rw [hcalls]
    exact h.refused hrun

end Strings

/-! ## The network card -/

section Packets

variable {k : Kernel} {c cur d : Nat} {buf addr len : U32}

/-- However `e1000_transmit` ends, it has read bytes of the packet only. -/
theorem e1000Transmit_used (k : Kernel) (c : Nat) (buf len : U32) : ∃ used,
    ((e1000Transmit c buf len).run k).state.trace = used ++ k.trace ∧
      ∀ ev, ev ∈ used → ∃ i, i < len.toNat ∧ ev = .access (buf + BitVec.ofNat 32 i) false := by
  -- what is said of the notes, in every state
  let R : U32 × Nat × List MemEvent → Prop := fun side => ∃ used, side.2.2 = used ++ k.trace ∧
    ∀ ev, ev ∈ used → ∃ i, i < len.toNat ∧ ev = .access (buf + BitVec.ofNat 32 i) false
  have hload : ∀ i, i < len.toNat → Ends (Beside R) (loadByte c (buf + BitVec.ofNat 32 i)) := by
    intro i hi
    refine Ends.bind (Ends.modify (fun k' h => ?_)) (fun _ => beside_peekByte)
    obtain ⟨used, htrace, hused⟩ := h
    refine ⟨.access (buf + BitVec.ofNat 32 i) false :: used, congrArg (List.cons _) htrace, ?_⟩
    intro ev hev
    rcases List.mem_cons.mp hev with rfl | hev
    · exact ⟨i, hi, rfl⟩
    · exact hused ev hev
  have hall : Ends (Beside R) (e1000Transmit c buf len) := by
    refine Ends.get.bind (fun _ => .ite (.pure _) (beside_step (fun _ => rfl) (fun _ =>
      Ends.bind (Ends.forRange_of_lt (fun i _ hi => ?_)) (fun _ =>
        beside_step (fun _ => rfl) (fun _ => .pure _)))))
    exact (hload i (by omega)).bind (fun _ => beside_last (fun _ => rfl))
  exact hall k ⟨[], rfl, fun ev hev => absurd hev List.not_mem_nil⟩

theorem Calling.pktTrySend_iff (h : Calling c cur d k) :
    KeepsTo k c cur d buf len (sysPktTrySend c buf len) ↔
      (k.Passes c buf len pteU → InSpace buf len) := by
  rcases h.assert buf len pteU with ⟨hpass, hrun, hmay⟩ | ⟨hno, at', hrun⟩
  · obtain ⟨used, htrace, hused⟩ :=
      e1000Transmit_used (k.log (.checked buf len (pteU ||| pteU))) c buf len
    have hall : ((sysPktTrySend c buf len).run k).state.trace =
        used ++ .checked buf len (pteU ||| pteU) :: k.trace := by
      unfold sysPktTrySend
      rw [Prog.run_bind_ret (theCurenv_run h.curenv), Prog.run_bind_ret hrun]
      exact htrace
    constructor
    · rintro ⟨-, hrefuses⟩ -
      by_contra hin
      exact not_refused hall (hrefuses (fun hmay => hin hmay.inSpace))
    · intro hcond
      have hmay := hmay (hcond hpass)
      refine ⟨⟨used ++ [.checked buf len (pteU ||| pteU)], ?_, allGuarded_of_inside hmay ?_⟩,
        fun hnot => absurd hmay hnot⟩
      · rw [hall, List.append_assoc]
        rfl
      · intro ev hev
        obtain ⟨i, hi, rfl⟩ := hused ev hev
        have hspace : buf.toNat + len.toNat ≤ 2 ^ 32 - 4096 := by
          rcases hcond hpass with rfl | hspace
          · exact absurd hi (Nat.not_lt_zero i)
          · exact hspace
        refine ⟨_, rfl, ?_, ?_⟩
        · rw [toNat_add_ofNat (by omega)]
          omega
        · rw [toNat_add_ofNat (by omega)]
          omega
  · exact iff_of_true (Refused.keepsTo (h.refused hrun)) (fun hpass => absurd hpass hno)

end Packets

/-! ## Calls without a check -/

section Unchecked

variable {k : Kernel} {c cur d : Nat} {va a1 a2 : U32} {used later : List MemEvent}

/-- A program that stores at once has nothing in front of its first access. -/
theorem storeBytes_first {f : Unit → Prog Kernel Int} {b : U8} {bs : List U8}
    (hf : ∀ R, AnyNotes R → ∀ u, Ends (Beside R) (f u)) :
    ∃ later, ((storeBytes c va (b :: bs) >>= f).run k).state.trace =
      later ++ .access va true :: k.trace := by
  let R : U32 × Nat × List MemEvent → Prop := fun side =>
    ∃ later, side.2.2 = later ++ .access va true :: k.trace
  have hnotes : AnyNotes R := by
    rintro t n evs ev ⟨later, hlater⟩
    exact ⟨ev :: later, congrArg (List.cons ev) hlater⟩
  have hfirst : Beside R ((storeByte c va b).run k).state := by
    unfold storeByte
    rw [Prog.run_bind_ret (Prog.run_modify _ k)]
    exact beside_pokeByte (R := R) _ ⟨[], rfl⟩
  exact Ends.behind (Ends.behind hfirst (fun _ => beside_storeBytes hnotes)) (hf R hnotes)

/-- Such a program keeps to no check. -/
theorem not_keepsTo_of_first {p : Prog Kernel Int}
    (hfirst : ∃ later, (p.run k).state.trace = later ++ .access va true :: k.trace) :
    ¬ ∃ used, (p.run k).state.trace = used ++ k.trace ∧ AllGuarded k d used := by
  rintro ⟨used, htrace, hguarded⟩
  obtain ⟨later, hlater⟩ := hfirst
  have hused : used = later ++ [.access va true] := by
    refine List.append_cancel_right ((htrace.symm.trans hlater).trans ?_)
    exact (List.append_assoc later [_] k.trace).symm
  rw [hused] at hguarded
  exact not_allGuarded_first hguarded

theorem setTrapframe_first {e : Nat} (he : k.envOf c a1 true = some e) :
    ∃ later, ((sysEnvSetTrapframe c a1 a2).run k).state.trace =
      later ++ .access (a2 + 56#32) true :: k.trace := by
  unfold sysEnvSetTrapframe
  rw [Prog.run_bind_ret (envid2env_run he)]
  exact storeBytes_first (fun R hnotes _ => beside_setFrame hnotes)

theorem pktRecv_first (hready : k.PacketReady) :
    ∃ later, ((sysPktRecv c a1 a2).run k).state.trace =
      later ++ .access a2 true :: k.trace := by
  unfold sysPktRecv e1000Receive
  rw [Prog.run_bind_ret (Prog.run_get k)]
  dsimp only
  rw [if_neg hready.1, if_neg (fun hne => hne hready.2)]
  exact storeBytes_first (fun R hnotes _ => beside_takePacket hnotes)

/-- Without an environment nothing is stored. -/
theorem setTrapframe_silent (he : k.envOf c a1 true = none) :
    ((sysEnvSetTrapframe c a1 a2).run k).state.trace = k.trace := by
  have hfind : Ends (Beside (fun side => side.2.2 = k.trace)) (envid2env c a1 true) :=
    beside_envid2env
  have hend := hfind k rfl
  unfold Kernel.envOf at he
  unfold sysEnvSetTrapframe
  rw [Prog.run_bind]
  cases hrun : (envid2env c a1 true).run k with
  | ret r k' =>
      rw [hrun] at hend he
      cases r with
      | error r => exact hend
      | ok e => cases he
  | exit k' =>
      rw [hrun] at hend
      exact hend
  | stop k' =>
      rw [hrun] at hend
      exact hend

theorem pktRecv_silent (hready : ¬ k.PacketReady) :
    ((sysPktRecv c a1 a2).run k).state.trace = k.trace := by
  unfold sysPktRecv e1000Receive
  rw [Prog.run_bind_ret (Prog.run_get k)]
  dsimp only
  by_cases hdone : (k.e1000.rxDescArray k.e1000.next).status &&& statDd = 0#8
  · rw [if_pos hdone]
    rfl
  · rw [if_neg hdone, if_pos (fun herr => hready ⟨hdone, herr⟩)]
    rfl

end Unchecked

/-! ## Every system call -/

section Calls

variable {k : Kernel} {io : Inputs} {c cur d : Nat} {no a1 a2 a3 a4 a5 : U32} {s : SyscallNo}

theorem syscall_of_no (hno : syscallNo no = some s) :
    syscall io c no a1 a2 a3 a4 a5 = syscallCase io c a1 a2 a3 a4 a5 s := by
  unfold syscall
  rw [hno]

/-- A call that hands over its first two arguments as a range to read. -/
theorem protects_iff_keepsTo (hno : syscallNo no = some s)
    (hhands : ∀ va len write, Hands k c a1 a2 s va len write ↔
      va = a1 ∧ len = a2 ∧ write = false) :
    Protects io c cur d no a1 a2 a3 a4 a5 k ↔
      KeepsTo k c cur d a1 a2 (syscallCase io c a1 a2 a3 a4 a5 s) := by
  have hcall : syscall io c no a1 a2 a3 a4 a5 = _ := syscall_of_no hno
  constructor
  · rintro ⟨hguarded, hrefuses⟩
    rw [hcall] at hguarded hrefuses
    exact ⟨hguarded, hrefuses s a1 a2 false hno ((hhands _ _ _).mpr ⟨rfl, rfl, rfl⟩)⟩
  · rintro ⟨hguarded, hrefuses⟩
    rw [← hcall] at hguarded hrefuses
    refine ⟨hguarded, fun s' va len write hs' hand hnot => ?_⟩
    obtain rfl := Option.some.inj (hno.symm.trans hs')
    obtain ⟨rfl, rfl, rfl⟩ := (hhands _ _ _).mp hand
    exact hrefuses hnot

/-- A call that hands over nothing and notes nothing. -/
theorem protects_of_silent (hno : syscallNo no = some s)
    (hhands : ∀ va len write, ¬ Hands k c a1 a2 s va len write)
    (hsilent : ((syscallCase io c a1 a2 a3 a4 a5 s).run k).state.trace = k.trace) :
    Protects io c cur d no a1 a2 a3 a4 a5 k := by
  have hcall : syscall io c no a1 a2 a3 a4 a5 = _ := syscall_of_no hno
  refine ⟨⟨[], by rw [hcall]; exact hsilent, trivial⟩, fun s' va len write hs' hand => ?_⟩
  obtain rfl := Option.some.inj (hno.symm.trans hs')
  exact absurd hand (hhands va len write)

/-- A call without pointers. -/
theorem protects_of_quiet (hno : syscallNo no = some s) (hquiet : ¬ s.Notes) :
    Protects io c cur d no a1 a2 a3 a4 a5 k := by
  refine protects_of_silent hno (fun va len write hand => ?_) ?_
  · cases hand with
    | cputs => exact hquiet (Or.inl rfl)
    | pktTrySend => exact hquiet (Or.inr (Or.inr (Or.inl rfl)))
    | setTrapframe _ => exact hquiet (Or.inr (Or.inl rfl))
    | pktLength _ => exact hquiet (Or.inr (Or.inr (Or.inr rfl)))
    | packet _ => exact hquiet (Or.inr (Or.inr (Or.inr rfl)))
  · exact beside_syscallCase (R := fun side => side.2.2 = k.trace) (fun h => absurd h hquiet) k rfl

/-- A call that stores at once does not protect its caller. -/
theorem not_protects_of_first {va : U32} (hno : syscallNo no = some s)
    (hfirst : ∃ later, ((syscallCase io c a1 a2 a3 a4 a5 s).run k).state.trace =
      later ++ .access va true :: k.trace) : ¬ Protects io c cur d no a1 a2 a3 a4 a5 k := by
  intro hprotects
  have hguarded := hprotects.guarded
  rw [syscall_of_no hno] at hguarded
  exact not_keepsTo_of_first hfirst hguarded

/-- When the kernel dereferences only what it has checked and its caller may access, and
destroys a caller that passes something else: always, but for a range that passes the
check although it goes past the end of the address space, a string that goes past its
range, a trap frame, and a packet that is received. -/
theorem syscall_protects_iff (h : Calling c cur d k) :
    Protects io c cur d no a1 a2 a3 a4 a5 k ↔
      ∀ s, syscallNo no = some s → k.Guards c a1 a2 s := by
  cases hno : syscallNo no with
  | none =>
      refine iff_of_true ⟨⟨[], ?_, trivial⟩, fun s va len write hs => ?_⟩ (fun s hs => ?_)
      · unfold syscall
        rw [hno]
        rfl
      · rw [hno] at hs
        cases hs
      · cases hs
  | some s =>
      have hone : (∀ s', some s = some s' → k.Guards c a1 a2 s') ↔ k.Guards c a1 a2 s :=
        ⟨fun hall => hall s rfl, fun hs s' heq => Option.some.inj heq ▸ hs⟩
      rw [hone]
      by_cases hquiet : s.Notes
      · rcases hquiet with rfl | rfl | rfl | rfl
        · rw [protects_iff_keepsTo hno (fun va len write => ⟨?_, ?_⟩)]
          · exact h.cputs_iff
          · rintro ⟨⟩
            exact ⟨rfl, rfl, rfl⟩
          · rintro ⟨rfl, rfl, rfl⟩
            exact .cputs
        · cases he : k.envOf c a1 true with
          | none =>
              refine iff_of_true (protects_of_silent hno ?_ (setTrapframe_silent he)) he
              rintro va len write ⟨⟩
              rename_i hsome
              rw [he] at hsome
              cases hsome
          | some e =>
              refine iff_of_false (not_protects_of_first hno (setTrapframe_first he)) ?_
              change ¬ k.envOf c a1 true = none
              rw [he]
              exact Option.some_ne_none e
        · rw [protects_iff_keepsTo hno (fun va len write => ⟨?_, ?_⟩)]
          · exact h.pktTrySend_iff
          · rintro ⟨⟩
            exact ⟨rfl, rfl, rfl⟩
          · rintro ⟨rfl, rfl, rfl⟩
            exact .pktTrySend
        · by_cases hready : k.PacketReady
          · exact iff_of_false (not_protects_of_first hno (pktRecv_first hready))
              (fun hnot => hnot hready)
          · refine iff_of_true (protects_of_silent hno ?_ (pktRecv_silent hready)) hready
            rintro va len write hand
            cases hand with
            | pktLength hyes => exact hready hyes
            | packet hyes => exact hready hyes
      · refine iff_of_true (protects_of_quiet hno hquiet) ?_
        cases s with
        | cputs => exact absurd (Or.inl rfl) hquiet
        | envSetTrapframe => exact absurd (Or.inr (Or.inl rfl)) hquiet
        | pktTrySend => exact absurd (Or.inr (Or.inr (Or.inl rfl))) hquiet
        | pktRecv => exact absurd (Or.inr (Or.inr (Or.inr rfl))) hquiet
        | _ => exact trivial

/-- `Calling`, for machines that can be run. -/
def Kernel.calling (k : Kernel) (c cur d : Nat) : Bool :=
  decide (k.kernelLock = some c ∧ k.curenv c = some cur ∧ (k.envs cur).envPgdir = some d ∧
    k.vm.cr3 c = d) &&
  (List.range npdentries).all (fun i =>
    (tableOf k.vm.mem d i).all (fun t => decide (t < k.vm.npages)))

theorem Calling.of_calling (h : k.calling c cur d = true) : Calling c cur d k := by
  obtain ⟨hstate, htables⟩ := Bool.and_eq_true_iff.mp h
  obtain ⟨hlock, hcur, hd, hloaded⟩ := of_decide_eq_true hstate
  refine ⟨hlock, hcur, hd, hloaded, fun i t hi ht => ?_⟩
  have hall := List.all_eq_true.mp htables i (List.mem_range.mpr hi)
  rw [ht] at hall
  exact of_decide_eq_true hall

/-- The empty string on a page that the caller has allocated. -/
theorem syscall_protects_string : ∃ k d, Calling 0 0 d k ∧
    Protects ⟨0, 0#32, none⟩ 0 0 d 0#32 0x800000#32 1#32 0#32 0#32 0#32 k := by
  have hsome : (execution 16 1 1 [.start 0, callEvent 0 4 0 0x800000#32 7 0 0]).any (fun k =>
      (k.traps 0).calling 0 0 ((k.traps 0).vm.cr3 0) &&
        decide ((k.traps 0).userByte 0 0x800000#32 = some 0#8)) = true := by
    decide +kernel
  obtain ⟨k, -, hthen⟩ := (Option.any_eq_true _ _).mp hsome
  obtain ⟨hcalling, hbyte⟩ := Bool.and_eq_true_iff.mp hthen
  have hbyte : (k.traps 0).userByte 0 (0x800000#32 + BitVec.ofNat 32 0) = some 0#8 :=
    of_decide_eq_true hbyte
  refine ⟨k.traps 0, _, .of_calling hcalling, ?_⟩
  refine (syscall_protects_iff (.of_calling hcalling)).mpr (fun s hs => ?_)
  obtain rfl : SyscallNo.cputs = s := Option.some.inj hs
  exact fun _ => ⟨Or.inr (by decide), Or.inr ⟨0, by decide, hbyte⟩⟩

/-- In the first system call of all, `sys_env_set_trapframe` stores on the stack page of its
caller without a look at the address. -/
theorem not_syscall_protects : ¬ ∀ (managed : Set Nat) (k : Kernel),
    RunOf managed (fun _ _ => True) k → ∀ (c cur d : Nat) (tf : Trapframe) (io : Inputs),
      k.curenv c = some cur → (k.envs cur).envStatus ≠ .dying →
      Calling c cur d ((k.traps c).saveTf cur tf) →
      Protects io c cur d tf.tfRegs.regEax tf.tfRegs.regEdx tf.tfRegs.regEcx tf.tfRegs.regEbx
        tf.tfRegs.regEdi tf.tfRegs.regEsi ((k.traps c).saveTf cur tf) := by
  intro hall
  have hsome : (execution 16 1 1 [.start 0]).any (fun k =>
      decide (k.curenv 0 = some 0 ∧ (k.envs 0).envStatus ≠ .dying) &&
        (((k.traps 0).saveTf 0 (syscallTf 9#32 0#32 0xeebfd000#32 0#32 0#32 0#32)).calling 0 0
            (k.vm.cr3 0) &&
          decide (((k.traps 0).saveTf 0
            (syscallTf 9#32 0#32 0xeebfd000#32 0#32 0#32 0#32)).envOf 0 0#32 true =
              some 0))) = true := by
    decide +kernel
  obtain ⟨k, hk, hthen⟩ := (Option.any_eq_true _ _).mp hsome
  obtain ⟨hstate, hthen⟩ := Bool.and_eq_true_iff.mp hthen
  obtain ⟨hcalling, he⟩ := Bool.and_eq_true_iff.mp hthen
  obtain ⟨hcur, halive⟩ := of_decide_eq_true hstate
  have hprotects := hall _ k (execution_runOf (by decide) (by decide) (fun _ _ _ => trivial) hk)
    0 0 _ (syscallTf 9#32 0#32 0xeebfd000#32 0#32 0#32 0#32) ⟨0, 0#32, none⟩ hcur halive
    (.of_calling hcalling)
  exact not_protects_of_first (s := .envSetTrapframe) rfl
    (setTrapframe_first (of_decide_eq_true he)) hprotects

end Calls

end Jos

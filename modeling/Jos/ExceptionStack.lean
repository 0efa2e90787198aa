import Jos.Frame
import Jos.UserChecks

/-!
# The exception stack

`page_fault_handler` pushes a frame below the trap-time stack pointer if that is on
the exception stack, and at the top of the exception stack otherwise.  What is
live is the part from the trap-time stack pointer up.

`fault_frame` says when a fault with the stack pointer on the exception stack page
leaves the live part alone, and kills the environment if there is no room: always,
except with the stack pointer on the lowest byte of the page, where the frame goes
to the top of the page (`not_fault_frame`), and except where the page below the
exception stack is mapped, so that there is room after all.
-/

namespace Jos

open Programs

variable {k k' : Kernel} {c cur : Nat} {io : Inputs} {tf : Trapframe} {esp : U32}

/-- The bottom of the exception stack. -/
def uxstackbottom : U32 := uxstacktop - pgsize

/-- What a fault needs: a `struct UTrapframe` and a spare word. -/
def frameSize : U32 := utrapframeSize + 4#32

/-- Where a fault with this stack pointer puts the frame. -/
def frameAt (esp : U32) : U32 := exceptionStackTop esp - frameSize

/-- The stack pointer is on the exception stack page. -/
def OnExceptionStack (esp : U32) : Prop := uxstackbottom ≤ esp ∧ esp < uxstacktop

/-- There is no room for another frame on the page. -/
def UsedUp (esp : U32) : Prop := esp < uxstackbottom + frameSize

/-- What a fault of environment `cur` should do if it was on the exception stack,
with the frames `live` on it: nothing from `esp` up is written and nothing of these
frames, and if the page is used up the environment is gone. -/
structure FrameSafe (k : Kernel) (cur : Nat) (esp : U32) (live : List U32)
    (k' : Kernel) : Prop where
  apart : ∃ used, k'.trace = used ++ k.trace ∧
    (∀ va, MemEvent.access va true ∈ used → ¬ (esp ≤ va ∧ va < uxstacktop)) ∧
    ∀ u n, u ∈ live → n < 52 → MemEvent.access (u + BitVec.ofNat 32 n) true ∉ used
  gone : UsedUp esp → (k'.envs cur).envStatus = .free

/-- The check of `page_fault_handler` passes. -/
def Writable (k : Kernel) (cur : Nat) (esp : U32) : Prop :=
  ∃ d, (k.envs cur).envPgdir = some d ∧
    RangeOk k.vm d (frameAt esp) frameSize (pteU ||| pteW)

/-- The environment goes to its page fault handler. -/
structure Upcalls (k : Kernel) (cur : Nat) (esp : U32) : Prop where
  alive : (k.envs cur).envStatus ≠ .dying
  upcall : (k.envs cur).envPgfaultUpcall ≠ 0#32
  writable : Writable k cur esp

/-- The faults of environment `cur` nest: its handlers, at any depth, fault again,
and in between anything may happen.  The frames of the handlers that have not
returned, innermost first. -/
inductive Nested (cur : Nat) : List U32 → Kernel → Prop where
  | start {k : Kernel} : Nested cur [] k
  | step {live : List U32} {k k' : Kernel} {ev : Event} :
      Nested cur live k → ev.step k = some k' → Nested cur live k'
  | fault {live : List U32} {k k' : Kernel} {c : Nat} {tf : Trapframe} {io : Inputs} :
      Nested cur live k → k.curenv c = some cur → tf.tfTrapno = tPgflt →
      (Event.trap c tf io).step k = some k' →
      Nested cur (frameAt tf.tfEsp :: live) k'
  | returns {live : List U32} {k : Kernel} {u : U32} :
      Nested cur (u :: live) k → Nested cur live k

/-- A frame is pushed, and the environment goes on. -/
structure Pushed (k : Kernel) (cur : Nat) (esp : U32) (k' : Kernel) : Prop where
  stores : ∃ used, k'.trace = used ++ k.trace ∧
    ∀ va, MemEvent.access va true ∈ used ↔ ∃ n, n < 52 ∧
      va = frameAt esp + BitVec.ofNat 32 n
  runs : (k'.envs cur).envStatus = .running

/-- A frame is stored, and the environment goes on in its page fault handler. -/
def Delivered (io : Inputs) (c : Nat) (tf : Trapframe) (k : Kernel) (cur : Nat)
    (k' : Kernel) : Prop :=
  ∃ k₁ d, (storeBytes c (frameAt tf.tfEsp)
      ((utrapframeWords io.cr2 tf).flatMap bytesOfU32)).run
        (k.log (.checked (frameAt tf.tfEsp) frameSize (pteU ||| pteW ||| pteU))) =
      .ret () k₁ ∧
    (k.envs cur).envPgdir = some d ∧
    k' = (k₁.redirect cur (frameAt tf.tfEsp)).dispatched c cur d

/-- Nothing is written, and the environment is gone. -/
structure Destroyed (k : Kernel) (cur : Nat) (k' : Kernel) : Prop where
  trace : k'.trace = k.trace
  free : (k'.envs cur).envStatus = .free

/-! ## The two ends of a fault -/

theorem Yields.trace (hy : Yields k c k') : k'.trace = k.trace := by
  cases hy with
  | dispatch _ _ _ _ => rfl
  | halt _ _ _ => rfl

theorem Dies.trace (hd : Dies c cur k k') : k'.trace = k.trace := by
  obtain ⟨k₁, -, hrun, rfl⟩ := hd
  obtain ⟨d, vm, -, rfl⟩ := envFree_ret hrun
  rfl

/-- An environment that dies writes nothing, and its slot is free. -/
theorem Dies.destroyed {k₁ : Kernel} (hd : Dies c cur k k₁) (hy : Yields k₁ c k') :
    Destroyed k cur k' where
  trace := hy.trace.trans hd.trace
  free := by
    have hfree : (k₁.envs cur).envStatus = .free := by
      obtain ⟨k₂, -, hrun, rfl⟩ := hd
      obtain ⟨d, vm, -, rfl⟩ := envFree_ret hrun
      change ((k.freed vm cur).envs cur).envStatus = .free
      rw [freed_envs_self]
    have hframe := hy.frame (e := cur) (by simp [hd.curenv])
    rcases hframe.status with hsame | ⟨hrunnable, -⟩
    · exact hsame.trans hfree
    · rw [hfree] at hrunnable
      exact absurd hrunnable (by simp)

theorem storeByte_trace {va : U32} {b : U8} :
    wp (storeByte c va b)
      (Partial (fun _ k' => k'.trace = .access va true :: k.trace) (fun _ => False)) k := by
  unfold storeByte pokeByte
  rw [wp_modify_bind, wp_get_bind]
  cases (k.log (.access va true)).vm.kernelPage
    ((k.log (.access va true)).vm.cr3 c) va true with
  | none => exact trivial
  | some p => exact rfl

/-- The bytes that are stored are in the trace. -/
theorem storeBytes_trace {va : U32} {bs : List U8} :
    wp (storeBytes c va bs)
      (Partial (fun _ k' => ∃ used, k'.trace = used ++ k.trace ∧
        ∀ a, MemEvent.access a true ∈ used ↔
          ∃ n, n < bs.length ∧ a = va + BitVec.ofNat 32 n) (fun _ => False)) k := by
  induction bs generalizing va k with
  | nil => exact ⟨[], rfl, by simp⟩
  | cons b bs ih =>
      refine partial_bind storeByte_trace (fun _ k₁ h₁ => ?_) (fun _ h => h)
      refine wp_mono ih (fun _ k₂ h₂ => ?_) (fun _ h => h) (fun _ h => h)
      obtain ⟨used, htrace, hmem⟩ := h₂
      refine ⟨used ++ [.access va true], by rw [htrace, h₁]; simp, fun a => ?_⟩
      rw [List.mem_append, List.mem_singleton, hmem]
      constructor
      · rintro (⟨n, hn, rfl⟩ | heq)
        · refine ⟨n + 1, by simpa using hn, ?_⟩
          rw [BitVec.add_assoc, ← BitVec.ofNat_add, Nat.add_comm]
        · cases heq
          exact ⟨0, by simp, by simp⟩
      · rintro ⟨n, hn, rfl⟩
        cases n with
        | zero => exact Or.inr (by simp)
        | succ n =>
            refine Or.inl ⟨n, by simpa using hn, ?_⟩
            rw [BitVec.add_assoc, ← BitVec.ofNat_add, Nat.add_comm]

/-- The check passes, and is noted, or the environment is destroyed. -/
theorem userMemAssert_ends {va len perm : U32}
    (hlock : k.kernelLock = some c) (hcur : k.curenv c = some cur) :
    wp (userMemAssert c cur va len perm)
      (Partial
        (fun _ k' => (∃ d, (k.envs cur).envPgdir = some d ∧
            RangeOk k.vm d va len (perm ||| pteU)) ∧
          k' = k.log (.checked va len (perm ||| pteU)))
        (fun k' => ¬ (∃ d, (k.envs cur).envPgdir = some d ∧
            RangeOk k.vm d va len (perm ||| pteU)) ∧ Destroyed k cur k')) k := by
  unfold userMemAssert
  refine partial_bind (R := fun d k' => (k.envs cur).envPgdir = some d ∧ k' = k)
    (X := fun _ => False) (thePgdir_wp (fun d hd => ⟨hd, rfl⟩)) ?_ (fun _ => False.elim)
  rintro d _ ⟨hd, rfl⟩
  rename_i k
  refine partial_bind (R := fun r k' =>
      (r = 0 ∧ RangeOk k.vm d va len (perm ||| pteU) ∧ k' = k) ∨
      (r = -eFault ∧ ¬ RangeOk k.vm d va len (perm ||| pteU) ∧
        ∃ vm, k' = k.setVm vm))
    (X := fun _ => False) ?_ (fun r k₁ h₁ => ?_) (fun _ => False.elim)
  · refine onVm_wp (userMemCheck_stays d va len (perm ||| pteU)) (fun r vm hrun => ?_)
    have hiff := userMemCheck_iff hrun
    rcases userMemCheck_ret hrun with ⟨hr, rfl⟩ | ⟨hr, -⟩
    · exact Or.inl ⟨hr, hiff.mp hr, rfl⟩
    · refine Or.inr ⟨hr, fun hok => ?_, vm, rfl⟩
      have hzero := hiff.mpr hok
      rw [hr] at hzero
      exact absurd hzero (by decide)
  · rcases h₁ with ⟨rfl, hok, rfl⟩ | ⟨rfl, hbad, vm, rfl⟩
    · exact ⟨⟨d, hd, hok⟩, rfl⟩
    · rw [if_pos (by decide)]
      refine wp_mono (envDestroy_self (R := fun _ _ => False) (k := k.setVm vm) hlock hcur)
        (fun _ _ => False.elim) ?_ (fun _ h => h)
      rintro k' ⟨k₂, hdies, hyields⟩
      have hend := hdies.destroyed hyields
      refine ⟨?_, hend.trace, hend.free⟩
      rintro ⟨d', hd', hok⟩
      obtain rfl : d = d' := Option.some.inj (hd.symm.trans hd')
      exact hbad hok

theorem Delivered.pushed (h : Delivered io c tf k cur k') : Pushed k cur tf.tfEsp k' := by
  obtain ⟨k₁, d, hrun, -, rfl⟩ := h
  obtain ⟨used, htrace, hused⟩ := wp_ret storeBytes_trace hrun
  have hlen : ((utrapframeWords io.cr2 tf).flatMap bytesOfU32).length = 52 := rfl
  refine ⟨⟨used ++ [.checked (frameAt tf.tfEsp) frameSize (pteU ||| pteW ||| pteU)], ?_,
    fun va => ?_⟩, dispatched_status_self⟩
  · change k₁.trace = _
    rw [htrace, List.append_assoc]
    rfl
  · rw [List.mem_append, List.mem_singleton, hused, hlen]
    simp

/-- `page_fault_handler` pushes a frame, or the environment is destroyed. -/
theorem pageFaultHandler_ends (hlock : k.kernelLock = some c)
    (hcur : k.curenv c = some cur) (halive : (k.envs cur).envStatus ≠ .dying) :
    wp (pageFaultHandler io c tf)
      (LeavesIn (fun k' => Upcalls k cur tf.tfEsp ∧ Delivered io c tf k cur k' ∨
        ¬ Upcalls k cur tf.tfEsp ∧ Destroyed k cur k')) k := by
  refine wp_ite (fun _ => trivial) (fun _ => ?_)
  refine theCurenv_bind hcur ?_
  rw [wp_get_bind]
  refine wp_ite (fun hup => ?_) (fun hup => ?_)
  · refine partial_bind (userMemAssert_ends hlock hcur) (fun _ k₁ h₁ => ?_) (fun k' h => ?_)
    · obtain ⟨⟨d, hd, hok⟩, rfl⟩ := h₁
      refine stays_bind (storeBytes_stays c _ _) (fun _ k₂ hrun => ?_)
      have hprocs := wp_ret storeBytes_wp hrun
      rw [wp_modify_bind]
      have hlock₂ : k₂.kernelLock = some c := hprocs.kernelLock.trans hlock
      have hd₂ : ((k₂.redirect cur
          (exceptionStackTop tf.tfEsp - frameSize)).envs cur).envPgdir = some d := by
        simp only [Kernel.redirect, Kernel.modifyEnv_envs_self]
        rw [hprocs.envs]
        exact hd
      refine wp_mono (envRun_dispatches (k := k₂.redirect cur _) hlock₂ hd₂)
        (fun _ _ h => h) (fun k' h => ?_) (fun _ h => h)
      exact Or.inl ⟨⟨halive, hup, d, hd, hok⟩, k₂, d, hrun, hd, h⟩
    · refine Or.inr ⟨fun hups => h.1 ?_, h.2⟩
      obtain ⟨d, hd, hok⟩ := hups.writable
      exact ⟨d, hd, hok⟩
  · refine wp_mono (envDestroy_self (R := fun _ _ => False) hlock hcur)
      (fun _ _ h => h) ?_ (fun _ h => h)
    rintro k' ⟨k₁, hdies, hyields⟩
    exact Or.inr ⟨fun hups => hups.upcall (Decidable.not_not.mp hup), hdies.destroyed hyields⟩

/-! ## Where frames are -/

theorem uxstacktop_toNat : uxstacktop.toNat = 0xEEC00000 := by decide

theorem uxstackbottom_toNat : uxstackbottom.toNat = 0xEEBFF000 := by decide

theorem frameSize_toNat : frameSize.toNat = 56 := by decide

/-- Above the lowest byte of the page, a frame goes below the stack pointer. -/
theorem frameAt_above (hlo : uxstackbottom < esp) (hhi : esp < uxstacktop) :
    (frameAt esp).toNat = esp.toNat - 56 := by
  have h : exceptionStackTop esp = esp := if_pos ⟨hlo, hhi⟩
  rw [BitVec.lt_def, uxstackbottom_toNat] at hlo
  unfold frameAt
  rw [h, BitVec.toNat_sub_of_le, frameSize_toNat]
  rw [BitVec.le_def, frameSize_toNat]
  omega

/-- Everywhere else it goes to the top of the page. -/
theorem frameAt_top (h : ¬ (uxstackbottom < esp ∧ esp < uxstacktop)) :
    (frameAt esp).toNat = 0xEEC00000 - 56 := by
  have htop : exceptionStackTop esp = uxstacktop := if_neg h
  unfold frameAt
  rw [htop]
  decide

/-- A frame ends below `UXSTACKTOP`. -/
theorem frameAt_le (esp : U32) : (frameAt esp).toNat + 56 ≤ 0xEEC00000 := by
  by_cases h : uxstackbottom < esp ∧ esp < uxstacktop
  · rw [frameAt_above h.1 h.2]
    have hlo := h.1
    have hhi := h.2
    rw [BitVec.lt_def, uxstackbottom_toNat] at hlo
    rw [BitVec.lt_def, uxstacktop_toNat] at hhi
    omega
  · have htop := frameAt_top h
    omega

theorem Nested.frame_le {live : List U32} {u : U32} (h : Nested cur live k)
    (hu : u ∈ live) : u.toNat + 56 ≤ 0xEEC00000 := by
  induction h with
  | start => simp at hu
  | step _ _ ih => exact ih hu
  | @fault live k k' c tf io _ _ _ _ ih =>
      rcases List.mem_cons.mp hu with rfl | hu
      · exact frameAt_le tf.tfEsp
      · exact ih hu
  | returns _ ih => exact ih (List.mem_cons_of_mem _ hu)

/-! ## A page fault -/

/-- A page fault out of user mode. -/
theorem trap_fault_ends (hcur : k.curenv c = some cur) (hpg : tf.tfTrapno = tPgflt)
    (hstep : (Event.trap c tf io).step k = some k') :
    Upcalls k cur tf.tfEsp ∧ Delivered io c tf ((k.traps c).saveTf cur tf) cur k' ∨
      ¬ Upcalls k cur tf.tfEsp ∧ Destroyed k cur k' := by
  change (if c < k.ncpu ∧ (k.cpus c).place = .user ∧ tf.FromUser then
    leaves ((trap io c tf).run k) else none) = some k' at hstep
  by_cases hok : c < k.ncpu ∧ (k.cpus c).place = .user ∧ tf.FromUser
  · rw [if_pos hok] at hstep
    obtain ⟨-, -, huser⟩ := hok
    have hrun : (trap io c tf).run k = .exit k' := by
      cases h : (trap io c tf).run k with
      | ret a s => simp [h, leaves] at hstep
      | exit s =>
          rw [h] at hstep
          exact congrArg Outcome.exit (Option.some.inj hstep)
      | stop s => simp [h, leaves] at hstep
    refine wp_exited (Q := LeavesIn (fun k' =>
      Upcalls k cur tf.tfEsp ∧ Delivered io c tf ((k.traps c).saveTf cur tf) cur k' ∨
        ¬ Upcalls k cur tf.tfEsp ∧ Destroyed k cur k')) ?_ hrun
    refine trap_user_wp huser ?_ ?_
    · intro cur' hcur' hdying k₁ hdies k' hyields
      obtain rfl : cur = cur' := Option.some.inj (hcur.symm.trans hcur')
      have hend := hdies.destroyed hyields
      exact Or.inr ⟨fun hups => hups.alive hdying, hend.trace, hend.free⟩
    · intro cur' hcur' halive
      obtain rfl : cur = cur' := Option.some.inj (hcur.symm.trans hcur')
      have hsaved : ((k.traps c).saveTf cur tf).envs cur =
          { k.envs cur with envTf := tf } := Kernel.modifyEnv_envs_self
      have hups : Upcalls ((k.traps c).saveTf cur tf) cur tf.tfEsp ↔
          Upcalls k cur tf.tfEsp := by
        constructor
        · intro h
          have halive' := h.alive
          have hupcall := h.upcall
          obtain ⟨d, hd, hrange⟩ := h.writable
          rw [hsaved] at halive' hupcall hd
          exact ⟨halive', hupcall, d, hd, hrange⟩
        · intro h
          obtain ⟨d, hd, hrange⟩ := h.writable
          refine ⟨?_, ?_, d, ?_, hrange⟩
          · rw [hsaved]
            exact h.alive
          · rw [hsaved]
            exact h.upcall
          · rw [hsaved]
            exact hd
      rw [wp_bind]
      unfold trapDispatch
      rw [if_pos hpg]
      have hlive : (((k.traps c).saveTf cur tf).envs cur).envStatus ≠ .dying := by
        rw [hsaved]
        exact halive
      refine wp_mono (pageFaultHandler_ends rfl (traps_curenv.trans hcur) hlive)
        (fun _ _ h => h.elim) (fun k' h => ?_) (fun _ h => h)
      · rw [hups] at h
        rcases h with ⟨hup, hdel⟩ | ⟨hno, hdead⟩
        · exact Or.inl ⟨hup, hdel⟩
        · exact Or.inr ⟨hno, hdead.trace, hdead.free⟩
  · rw [if_neg hok] at hstep
    exact absurd hstep (by simp)

/-- A fault on the exception stack leaves what is live alone, and kills the
environment when the page is used up, exactly if the environment has no handler or
the check fails or there is room for the frame. -/
theorem fault_frame {live : List U32} (hnest : Nested cur live k)
    (hcur : k.curenv c = some cur) (hpg : tf.tfTrapno = tPgflt)
    (hstep : (Event.trap c tf io).step k = some k') (hon : OnExceptionStack tf.tfEsp)
    (hlive : ∀ u, u ∈ live → tf.tfEsp ≤ u) :
    FrameSafe k cur tf.tfEsp live k' ↔
      ¬ Upcalls k cur tf.tfEsp ∨ uxstackbottom + frameSize ≤ tf.tfEsp := by
  have hlo := hon.1
  have hhi := hon.2
  rw [BitVec.le_def, uxstackbottom_toNat] at hlo
  rw [BitVec.lt_def, uxstacktop_toNat] at hhi
  have hroom : uxstackbottom + frameSize ≤ tf.tfEsp ↔ 0xEEBFF000 + 56 ≤ tf.tfEsp.toNat := by
    rw [BitVec.le_def]
    exact Iff.rfl
  have hused : UsedUp tf.tfEsp ↔ tf.tfEsp.toNat < 0xEEBFF000 + 56 := by
    unfold UsedUp
    rw [BitVec.lt_def]
    exact Iff.rfl
  rcases trap_fault_ends hcur hpg hstep with ⟨hups, hdel⟩ | ⟨hno, hdead⟩
  · constructor
    · intro hsafe
      refine Or.inr (hroom.mpr ?_)
      by_contra hlt
      have hfree := hsafe.gone (hused.mpr (by omega))
      rw [hdel.pushed.runs] at hfree
      exact absurd hfree (by simp)
    · rintro (hno | hge)
      · exact absurd hups hno
      have hge := hroom.mp hge
      obtain ⟨used, htrace, hstores⟩ := hdel.pushed.stores
      have hat : (frameAt tf.tfEsp).toNat = tf.tfEsp.toNat - 56 :=
        frameAt_above (by rw [BitVec.lt_def, uxstackbottom_toNat]; omega) hon.2
      -- the bytes that are written lie below the stack pointer
      have hbelow : ∀ va, MemEvent.access va true ∈ used →
          va.toNat + 4 < tf.tfEsp.toNat + 1 := by
        intro va hva
        obtain ⟨n, hn, rfl⟩ := (hstores va).mp hva
        rw [BitVec.toNat_add, hat, BitVec.toNat_ofNat]
        omega
      refine ⟨⟨used, htrace, fun va hva h => ?_, fun u n hu hn hva => ?_⟩,
        fun h => absurd (hused.mp h) (by omega)⟩
      · have hlt := hbelow va hva
        have hle := h.1
        rw [BitVec.le_def] at hle
        omega
      · have hlt := hbelow _ hva
        have hle := hlive u hu
        have htop := hnest.frame_le hu
        rw [BitVec.le_def] at hle
        rw [BitVec.toNat_add, BitVec.toNat_ofNat] at hlt
        omega
  · refine ⟨fun _ => Or.inl hno, fun _ => ⟨⟨[], hdead.trace, by simp, by simp⟩,
      fun _ => hdead.free⟩⟩

/-- A page fault with a stack pointer. -/
def faultEvent (esp : U32) : Event :=
  .trap 0 { initialTf with tfTrapno := tPgflt, tfEsp := esp } ⟨0, 0x1000#32, none⟩

/-- An environment maps its exception stack and sets a handler. -/
def handlerSet : List Event :=
  [.start 0, callEvent 0 4 0 uxstackbottom 7#32 0 0,
    callEvent 0 10 0 0x800000#32 0 0 0]

/-- It faults half way up the page. -/
theorem fault_frame_half : ∃ k k', execution 16 1 1 handlerSet = some k ∧
    (faultEvent 0xEEBFF800#32).step k = some k' ∧
    FrameSafe k 0 0xEEBFF800#32 [] k' := by
  have hsome : (execution 16 1 1 handlerSet).any (fun k =>
      decide (k.curenv 0 = some 0) && ((faultEvent 0xEEBFF800#32).step k).isSome) =
        true := by decide +kernel
  obtain ⟨k, hk, hthen⟩ := (Option.any_eq_true _ _).mp hsome
  obtain ⟨hcur, hstep⟩ := Bool.and_eq_true_iff.mp hthen
  obtain ⟨k', hk'⟩ := Option.isSome_iff_exists.mp hstep
  exact ⟨k, k', hk, hk', (fault_frame .start (of_decide_eq_true hcur) rfl hk'
    (by unfold OnExceptionStack; decide) (by simp)).mpr (Or.inr (by decide))⟩

/-- With the stack pointer at the bottom of the page the frame overwrites the top of
the page. -/
theorem not_fault_frame :
    ¬ ∀ (k k' : Kernel) (c cur : Nat) (tf : Trapframe) (io : Inputs) (live : List U32),
      Nested cur live k → k.curenv c = some cur → tf.tfTrapno = tPgflt →
      (Event.trap c tf io).step k = some k' → OnExceptionStack tf.tfEsp →
      (∀ u, u ∈ live → tf.tfEsp ≤ u) → FrameSafe k cur tf.tfEsp live k' := by
  intro hall
  have hsome : (execution 16 1 1 handlerSet).any (fun k =>
      decide (k.curenv 0 = some 0) &&
      ((faultEvent uxstackbottom).step k).any (fun k' => decide
        (k.trace = [] ∧ MemEvent.access 0xEEBFFFC8#32 true ∈ k'.trace))) = true := by
    decide +kernel
  obtain ⟨k, hk, hthen⟩ := (Option.any_eq_true _ _).mp hsome
  obtain ⟨hcur, hthen⟩ := Bool.and_eq_true_iff.mp hthen
  obtain ⟨k', hk', hthen⟩ := (Option.any_eq_true _ _).mp hthen
  obtain ⟨hempty, hwrite⟩ := of_decide_eq_true hthen
  have hsafe := hall k k' 0 0 _ _ [] .start (of_decide_eq_true hcur) rfl hk'
    (by unfold OnExceptionStack; decide) (by simp)
  obtain ⟨used, htrace, hapart, -⟩ := hsafe.apart
  rw [hempty, List.append_nil] at htrace
  rw [htrace] at hwrite
  exact hapart _ hwrite (by decide)

end Jos

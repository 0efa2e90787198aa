import Jos.PageFaultUpcall
import Jos.Sound

/-!
# What the kernel makes of a page fault

`Upcall.deliver` is a page fault as the environment sees it.  Here it is what `trap` does, in a
system that is in order: the trap frame that the environment goes on with is that of
`Upcall.deliver`, and so is all that is mapped in the environment, if the page of the exception
stack is mapped only once.
-/

namespace Jos

open Programs

section Stores

variable {managed : Set Nat} {k k' : Kernel} {c q : Nat} {va : U32} {bs : List U8}

/-- The kernel reads through the same mappings below `UTOP` before and after a store. -/
theorem Stored.kernelPage_eq (hs : Stored managed k k') (hd : k.vm.cr3 c ∈ envDirs k)
    (hi : pdx va < userPdes) : k'.vm.kernelPage (k'.vm.cr3 c) va false =
      k.vm.kernelPage (k.vm.cr3 c) va false := by
  have hentry := hs.views.entry _ _ _ hd hi (ptx_lt va)
  unfold PhysMem.kernelPage
  rw [hs.frame.cr3, hentry]
  cases entryOf k.vm.mem (k.vm.cr3 c) (pdx va) (ptx va) with
  | none => rfl
  | some w => simp only [Bool.false_eq_true, false_implies, if_true]

/-- A page that is mapped at none of the addresses is not touched. -/
theorem storeBytes_others (h : Memory managed k) (hd : k.vm.cr3 c ∈ envDirs k)
    (hlow : ∀ n, n < bs.length → pdx (va + BitVec.ofNat 32 n) < userPdes)
    (hq : ∀ n, n < bs.length →
      k.vm.kernelPage (k.vm.cr3 c) (va + BitVec.ofNat 32 n) false ≠ some q) :
    wp (storeBytes c va bs)
      (Partial (fun _ k' => ∀ o, k'.vm.byte q o = k.vm.byte q o) (fun _ => False)) k := by
  induction bs generalizing va k with
  | nil => exact fun _ => rfl
  | cons b bs ih =>
      have hcons : ∀ n, va + BitVec.ofNat 32 (n + 1) = va + 1#32 + BitVec.ofNat 32 n := fun n => by
        rw [Nat.add_comm n 1, BitVec.ofNat_add, ← BitVec.add_assoc]
      have hfirst : va + BitVec.ofNat 32 0 = va := by simp
      have hlow₀ := hlow 0 (by simp)
      have hq₀ := hq 0 (by simp)
      rw [hfirst] at hlow₀ hq₀
      -- where the first byte goes
      have hbyte : wp (storeByte c va b) (Partial (fun _ k₁ =>
          ∀ o, k₁.vm.byte q o = k.vm.byte q o) (fun _ => False)) k := by
        unfold storeByte pokeByte
        rw [wp_modify_bind, wp_get_bind, Kernel.log_vm]
        cases hp : k.vm.kernelPage (k.vm.cr3 c) va true with
        | none => exact trivial
        | some p =>
            intro o
            refine (byte_setByte _ p (pgoff va) q o b).trans (if_neg ?_)
            rintro ⟨rfl, -⟩
            obtain ⟨w, hw, hnum, -⟩ := kernelPage_eq_some.mp hp
            exact hq₀ (kernelPage_eq_some.mpr ⟨w, hw, hnum, fun h => absurd h (by decide)⟩)
      have hboth : wp (storeByte c va b) (Partial (fun _ k₁ => Stored managed k k₁ ∧
          ∀ o, k₁.vm.byte q o = k.vm.byte q o) (fun _ => False)) k :=
        wp_mono (wp_and (storeByte_stored h hd (Or.inl hlow₀)) hbyte) (fun _ _ h => h)
          (fun _ h => h.1) (fun _ _ => trivial)
      refine partial_bind hboth ?_ (fun _ h => h)
      rintro _ k₁ ⟨h₁, hsame⟩
      have hd₁ : k₁.vm.cr3 c ∈ envDirs k₁ := by
        rw [h₁.procs.envDirs_eq, h₁.frame.cr3]
        exact hd
      have hlow₁ : ∀ n, n < bs.length → pdx (va + 1#32 + BitVec.ofNat 32 n) < userPdes :=
        fun n hn => hcons n ▸ hlow (n + 1) (by simpa using hn)
      refine wp_mono (ih h₁.memory hd₁ hlow₁ (fun n hn => ?_))
        (fun _ _ h₂ o => (h₂ o).trans (hsame o)) (fun _ h => h) (fun _ h => h)
      rw [h₁.kernelPage_eq hd (hlow₁ n hn), ← hcons n]
      exact hq (n + 1) (by simpa using hn)

end Stores

/-! ## A page fault -/

/-- What is mapped below `UTOP` is as in `v`. -/
def Kernel.Shows (k : Kernel) (c : Nat) (v : Bytes.Memory) : Prop :=
  ∀ va b, k.Reads c va b → v va.toNat = b

/-- The page of the exception stack is mapped nowhere else below `UTOP`. -/
def Kernel.Unshared (k : Kernel) (c : Nat) : Prop :=
  ∀ va p, pdx va < userPdes → k.vm.kernelPage (k.vm.cr3 c) va false = some p →
    k.vm.kernelPage (k.vm.cr3 c) uxstackbottom false = some p → Upcall.OnPage va.toNat

/-- Environment `cur` is running on processor `c` with these registers and this memory. -/
structure Kernel.Running (k : Kernel) (c cur : Nat) (s : Upcall.Cpu) : Prop where
  curenv : k.curenv c = some cur
  saves : Upcall.Saves s (k.envs cur).envTf
  shows : k.Shows c s.mem

section Delivery

variable {managed : Set Nat} {k k' : Kernel} {c cur : Nat} {io : Inputs} {tf : Trapframe}
  {s : Upcall.Cpu} {p : Upcall.Placement} {va : U32}

/-- All of the page of the exception stack is mapped alike. -/
theorem kernelPage_onPage {m : PhysMem} {d : Nat} (h : Upcall.OnPage va.toNat) :
    m.kernelPage d va false = m.kernelPage d uxstackbottom false := by
  rw [Upcall.onPage_iff] at h
  have hdx : pdx va = pdx uxstackbottom := by
    rw [pdx_eq, pdx_eq, uxstackbottom_toNat]
    omega
  have htx : ptx va = ptx uxstackbottom := by
    rw [ptx_eq, ptx_eq, uxstackbottom_toNat]
    omega
  unfold PhysMem.kernelPage
  rw [hdx, htx]
  cases entryOf m.mem d (pdx uxstackbottom) (ptx uxstackbottom) with
  | none => rfl
  | some w => simp only [Bool.false_eq_true, false_implies, if_true]

theorem userPdes_onPage (h : Upcall.OnPage va.toNat) : pdx va < userPdes := by
  rw [Upcall.onPage_iff] at h
  rw [pdx_eq]
  show va.toNat / 2 ^ 22 < 955
  omega

/-- Words on the exception stack are stored as if memory was flat. -/
theorem storeBytes_shows {base : U32} {ws : List U32} {v : Bytes.Memory} (h : Memory managed k)
    (hd : k.vm.cr3 c ∈ envDirs k) (hshows : k.Shows c v) (halone : k.Unshared c)
    (hlo : 0xEEBFF000 ≤ base.toNat) (hhi : base.toNat + 4 * ws.length ≤ 0xEEC00000)
    (hrun : (storeBytes c base (ws.flatMap bytesOfU32)).run k = .ret () k') :
    k'.Shows c (Bytes.setWords v base.toNat ws) ∧ k'.vm.cr3 c = k.vm.cr3 c := by
  have hlen : (ws.flatMap bytesOfU32).length = 4 * ws.length := by
    rw [List.length_flatMap]
    show (ws.map (fun _ => 4)).sum = _
    rw [List.map_const', List.sum_replicate]
    exact Nat.mul_comm _ _
  have haddr : ∀ n, n < 4 * ws.length → (base + BitVec.ofNat 32 n).toNat = base.toNat + n := by
    intro n hn
    rw [BitVec.toNat_add, BitVec.toNat_ofNat]
    omega
  have hon : ∀ n, n < 4 * ws.length → Upcall.OnPage (base + BitVec.ofNat 32 n).toNat := by
    intro n hn
    rw [haddr n hn, Upcall.onPage_iff]
    omega
  have hlow : ∀ n, n < (ws.flatMap bytesOfU32).length →
      pdx (base + BitVec.ofNat 32 n) < userPdes :=
    fun n hn => userPdes_onPage (hon n (hlen ▸ hn))
  obtain ⟨hs, hreads⟩ := wp_ret
    (storeBytes_reads h hd (by omega) (fun n hn => Or.inl (hlow n hn))) hrun
  refine ⟨?_, hs.frame.cr3 ▸ rfl⟩
  rintro va b ⟨hi, q, hq', hb⟩
  have hq : k.vm.kernelPage (k.vm.cr3 c) va false = some q :=
    (hs.kernelPage_eq hd hi).symm.trans hq'
  by_cases hin : base.toNat ≤ va.toNat ∧ va.toNat < base.toNat + 4 * ws.length
  · -- a byte of the words
    obtain ⟨n, hn, hsum⟩ : ∃ n, n < 4 * ws.length ∧ va.toNat = base.toNat + n :=
      ⟨va.toNat - base.toNat, by omega, by omega⟩
    have hva : va = base + BitVec.ofNat 32 n := BitVec.eq_of_toNat_eq (hsum.trans (haddr n hn).symm)
    obtain ⟨-, q', hread, hbyte⟩ := hreads n (hlen ▸ hn)
    rw [← hva] at hread hbyte
    obtain rfl := Option.some.inj (hq'.symm.trans hread)
    rw [hsum, setWords_getD hn, ← hb, hbyte, List.getD_eq_getElem _ _ (hlen ▸ hn)]
    rfl
  · rw [Bytes.setWords_of_apart (by omega)]
    refine hshows va b ⟨hi, q, hq, ?_⟩
    rw [← hb]
    by_cases hpage : Upcall.OnPage va.toNat
    · -- elsewhere on the page
      refine (wp_ret (storeBytes_keeps (fun n hn heq => hin ?_)) hrun q).symm
      have hon' := hon n (hlen ▸ hn)
      rw [pgoff_eq, pgoff_eq] at heq
      rw [Upcall.onPage_iff] at hpage hon'
      have hsum := haddr n (hlen ▸ hn)
      omega
    · -- on a page that is mapped elsewhere
      refine (wp_ret (storeBytes_others h hd hlow (fun n hn heq => hpage ?_)) hrun (pgoff va)).symm
      rw [kernelPage_onPage (hon n (hlen ▸ hn))] at heq
      exact halone va q hi hq heq

/-- A fault of an environment that has a handler and room for the frame. -/
theorem trap_delivers (h : Sound managed k) (hcur : k.curenv c = some cur)
    (hpg : tf.tfTrapno = tPgflt) (hstep : (Event.trap c tf io).step k = some k')
    (hups : Upcalls k cur tf.tfEsp) (hsaves : Upcall.Saves s tf)
    (hplace : Upcall.Normal s.esp ∨ Upcall.Inside s.esp) (hshows : k.Shows c s.mem)
    (halone : k.Unshared c) (hupcall : (k.envs cur).envPgfaultUpcall = p.addr 0) :
    k'.Running c cur (Upcall.deliver p io.cr2 tf s) := by
  rcases trap_fault_ends hcur hpg hstep with ⟨-, hdel⟩ | ⟨hno, -⟩
  · obtain ⟨k₁, d, hrun, hd, rfl⟩ := hdel
    have hsave : SamePages (k.traps c) ((k.traps c).saveTf cur tf) :=
      samePages_edit rfl rfl rfl Iff.rfl
    have hmemory : Memory managed ((k.traps c).saveTf cur tf) :=
      (h.memory.congr samePages_traps.mem samePages_traps.table).congr hsave.mem hsave.table
    have hlog := stored_of_quiet hmemory
      (quiet_log (.checked (frameAt tf.tfEsp) frameSize (pteU ||| pteW ||| pteU)))
    have hdir : k.vm.cr3 c ∈ envDirs (((k.traps c).saveTf cur tf).log
        (.checked (frameAt tf.tfEsp) frameSize (pteU ||| pteW ||| pteU))) := by
      rw [hlog.procs.envDirs_eq, hsave.table.envDirs_eq, samePages_traps.table.envDirs_eq]
      exact h.loaded.dir_mem h.order hcur
    have hbounds := Upcall.frameAt_bounds hplace
    rw [← hsaves.esp] at hbounds
    obtain ⟨hshows', hcr3⟩ := storeBytes_shows hlog.memory hdir hshows halone hbounds.1
      (by show _ + 4 * 13 ≤ _; omega) hrun
    have henvs := (wp_ret storeBytes_wp hrun).envs
    have hsaved : ((k.traps c).saveTf cur tf).envs cur = { k.envs cur with envTf := tf } :=
      Kernel.modifyEnv_envs_self
    have hsame : d = k₁.vm.cr3 c := by
      rw [hsaved] at hd
      rw [hcr3]
      exact Option.some.inj (hd.symm.trans (h.loaded c cur hcur))
    refine ⟨dispatched_curenv_self, ?_, ?_⟩
    · have htf : (((k₁.redirect cur (frameAt tf.tfEsp)).dispatched c cur d).envs cur).envTf =
          { tf with tfEip := (k.envs cur).envPgfaultUpcall, tfEsp := frameAt tf.tfEsp } := by
        rw [dispatched_envs]
        simp only [Kernel.redirect, Kernel.modifyEnv_envs_self]
        rw [henvs]
        show { (((k.traps c).saveTf cur tf).envs cur).envTf with
          tfEip := (((k.traps c).saveTf cur tf).envs cur).envPgfaultUpcall
          tfEsp := frameAt tf.tfEsp } = _
        rw [hsaved]
      rw [htf]
      exact ⟨hsaves.edi, hsaves.esi, hsaves.ebp, hsaves.ebx, hsaves.edx, hsaves.ecx, hsaves.eax,
        hupcall, hsaves.eflags, rfl⟩
    · rintro va b ⟨hi, q, hq, hb⟩
      refine hshows' va b ⟨hi, q, ?_, hb⟩
      have hcr : ((k₁.redirect cur (frameAt tf.tfEsp)).dispatched c cur d).vm.cr3 c =
          k₁.vm.cr3 c := by
        rw [← hsame]
        exact Function.update_self ..
      rw [hcr] at hq
      exact hq
  · exact absurd hups hno

end Delivery

end Jos

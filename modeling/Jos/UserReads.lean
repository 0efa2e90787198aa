import Jos.PageCalls

/-!
# What the kernel reads of the user

A load of the kernel through a user address gives the byte that is mapped
there, or faults.  The programs that go on behind a check of a range: what
they read there, and whether it lies in the range.
-/

namespace Jos

open Programs

/-- The byte that a load of processor `c` gives; none if the load faults. -/
def Kernel.userByte (k : Kernel) (c : Nat) (va : U32) : Option U8 :=
  (k.vm.kernelPage (k.vm.cr3 c) va false).map (fun p => k.vm.byte p (pgoff va))

section Loads

variable {k k' : Kernel} {c e d : Nat} {va len perm : U32} {b : U8}

theorem loadByte_reads (h : k.userByte c va = some b) :
    (loadByte c va).run k = .ret b (k.log (.access va false)) := by
  obtain ⟨p, hp, rfl⟩ := Option.map_eq_some_iff.mp h
  have hp' : (k.log (.access va false)).vm.kernelPage
      ((k.log (.access va false)).vm.cr3 c) va false = some p := hp
  unfold loadByte peekByte
  rw [Prog.run_bind_ret (Prog.run_modify _ k), Prog.run_bind_ret (Prog.run_get _), hp']
  rfl

theorem loadByte_ret (h : (loadByte c va).run k = .ret b k') :
    k.userByte c va = some b ∧ k' = k.log (.access va false) := by
  cases hbyte : k.userByte c va with
  | some x =>
      rw [loadByte_reads hbyte] at h
      obtain ⟨rfl, rfl⟩ := Outcome.ret.inj h
      exact ⟨rfl, rfl⟩
  | none =>
      have hp : (k.log (.access va false)).vm.kernelPage
          ((k.log (.access va false)).vm.cr3 c) va false = none :=
        Option.map_eq_none_iff.mp hbyte
      unfold loadByte peekByte at h
      rw [Prog.run_bind_ret (Prog.run_modify _ k), Prog.run_bind_ret (Prog.run_get _), hp] at h
      cases h

/-- The range passes the check of user memory for the environment that
processor `c` runs. -/
def Kernel.Passes (k : Kernel) (c : Nat) (va len perm : U32) : Prop :=
  ∃ e d m, k.curenv c = some e ∧ (k.envs e).envPgdir = some d ∧
    (userMemCheck d va len (perm ||| pteU)).run k.vm = .ret 0 m

/-- An assertion on user memory that holds is noted, and nothing else is done. -/
theorem userMemAssert_passes {m : PhysMem} (hd : (k.envs e).envPgdir = some d)
    (hcheck : (userMemCheck d va len (perm ||| pteU)).run k.vm = .ret 0 m) :
    (userMemAssert c e va len perm).run k =
      .ret () (k.log (.checked va len (perm ||| pteU))) := by
  obtain rfl : m = k.vm := by
    rcases userMemCheck_ret hcheck with ⟨-, rfl⟩ | ⟨hr, -⟩
    · rfl
    · exact absurd hr (by decide)
  have hpgdir : (thePgdir e).run k = .ret d k := by
    unfold thePgdir
    rw [Prog.run_bind_ret (Prog.run_get k), hd]
    rfl
  unfold userMemAssert
  rw [Prog.run_bind_ret hpgdir, Prog.run_bind_ret (onVm_ret hcheck), if_neg (by decide)]
  rfl

end Loads

/-! ## Printing a string -/

/-- `putString` looks at `n + 1` bytes. -/
structure Scans (k : Kernel) (c : Nat) (p : U32) (precision : Int) (n : Nat) : Prop where
  readable : ∀ j, j ≤ n → ∃ b, k.userByte c (p + BitVec.ofNat 32 j) = some b
  goesOn : ∀ j, j < n → k.userByte c (p + BitVec.ofNat 32 j) ≠ some 0#8 ∧
    (precision < 0 ∨ (j : Int) < precision)
  ends : k.userByte c (p + BitVec.ofNat 32 n) = some 0#8 ∨
    (0 ≤ precision ∧ precision ≤ n)

section Strings

variable {k k' : Kernel} {c n fuel : Nat} {p s len : U32} {precision : Int} {b : U8}

/-- The precision for the bytes behind the first one. -/
def restPrecision (precision : Int) : Int :=
  if precision < 0 then precision else precision - 1

theorem add_one_ofNat (j : Nat) :
    p + 1#32 + BitVec.ofNat 32 j = p + BitVec.ofNat 32 (j + 1) := by
  rw [Nat.add_comm j 1, BitVec.ofNat_add, ← BitVec.add_assoc]

/-- A byte is printed, and the rest is looked at. -/
theorem Scans.cons (hb : k.userByte c p = some b) (hne : b ≠ 0#8)
    (hprec : precision < 0 ∨ 0 < precision)
    (h : Scans k c (p + 1#32) (restPrecision precision) n) : Scans k c p precision (n + 1) := by
  have hzero : p + BitVec.ofNat 32 0 = p := by simp
  refine ⟨fun j hj => ?_, fun j hj => ?_, ?_⟩
  · cases j with
    | zero => exact ⟨b, by rw [hzero, hb]⟩
    | succ j =>
        rw [← add_one_ofNat]
        exact h.readable j (by omega)
  · cases j with
    | zero =>
        rw [hzero, hb]
        refine ⟨fun heq => hne (Option.some.inj heq), ?_⟩
        omega
    | succ j =>
        have hrest := h.goesOn j (by omega)
        rw [add_one_ofNat] at hrest
        refine ⟨hrest.1, ?_⟩
        have hlt := hrest.2
        unfold restPrecision at hlt
        split at hlt
        · omega
        · omega
  · rw [← add_one_ofNat]
    refine h.ends.imp_right (fun hend => ?_)
    unfold restPrecision at hend
    split at hend
    · omega
    · omega

theorem Scans.tail (h : Scans k c p precision (n + 1)) :
    ∃ b, k.userByte c p = some b ∧ b ≠ 0#8 ∧ (precision < 0 ∨ 0 < precision) ∧
      Scans k c (p + 1#32) (restPrecision precision) n := by
  have hzero : p + BitVec.ofNat 32 0 = p := by simp
  obtain ⟨b, hb⟩ := h.readable 0 (by omega)
  obtain ⟨hne, hprec⟩ := h.goesOn 0 (by omega)
  rw [hzero] at hb hne
  refine ⟨b, hb, fun heq => hne (by rw [hb, heq]), by omega, fun j hj => ?_, fun j hj => ?_, ?_⟩
  · rw [add_one_ofNat]
    exact h.readable (j + 1) (by omega)
  · rw [add_one_ofNat]
    have hnext := h.goesOn (j + 1) (by omega)
    refine ⟨hnext.1, ?_⟩
    unfold restPrecision
    split
    · omega
    · omega
  · rw [add_one_ofNat]
    refine h.ends.imp_right (fun hend => ?_)
    unfold restPrecision
    split
    · omega
    · omega

/-- The loop returns from a scan, having looked at its bytes and no others. -/
theorem putString_ret (h : (putString c fuel p precision).run k = .ret () k') :
    ∃ n, n < fuel ∧ Scans k c p precision n ∧ ∃ evs, k'.trace = evs ++ k.trace ∧
      ∀ ev, ev ∈ evs ↔ ∃ j, j ≤ n ∧ ev = .access (p + BitVec.ofNat 32 j) false := by
  have hzero : ∀ q : U32, q + BitVec.ofNat 32 0 = q := fun q => by simp
  induction fuel generalizing p precision k with
  | zero => cases h
  | succ fuel ih =>
      obtain ⟨b, k₁, hload, hrest⟩ := Prog.bind_ret_iff.mp h
      obtain ⟨hb, rfl⟩ := loadByte_ret hload
      split at hrest
      · rename_i hgo
        obtain ⟨u, k₂, hput, hloop⟩ := Prog.bind_ret_iff.mp hrest
        cases hput
        obtain ⟨n, hn, hscans, evs, htrace, hevs⟩ := ih hloop
        have hcons : Scans k c p precision (n + 1) :=
          Scans.cons hb hgo.1 (by omega) ⟨hscans.readable, hscans.goesOn, hscans.ends⟩
        refine ⟨n + 1, by omega, hcons, evs ++ [.access p false], ?_, fun ev => ?_⟩
        · rw [htrace, List.append_assoc]
          rfl
        · rw [List.mem_append, List.mem_singleton, hevs]
          constructor
          · rintro (⟨j, hj, rfl⟩ | rfl)
            · exact ⟨j + 1, by omega, by rw [add_one_ofNat]⟩
            · exact ⟨0, by omega, by rw [hzero]⟩
          · rintro ⟨j, hj, rfl⟩
            cases j with
            | zero => exact Or.inr (by rw [hzero])
            | succ j => exact Or.inl ⟨j, by omega, by rw [add_one_ofNat]⟩
      · rename_i hstop
        cases hrest
        refine ⟨0, by omega, ⟨fun j hj => ?_, fun j hj => by omega, ?_⟩,
          [.access p false], rfl, fun ev => ?_⟩
        · obtain rfl : j = 0 := by omega
          exact ⟨b, by rw [hzero, hb]⟩
        · rw [hzero, hb]
          by_cases hb0 : b = 0#8
          · exact Or.inl (by rw [hb0])
          · have hprec : ¬ (precision < 0 ∨ precision - 1 ≥ 0) := fun hp => hstop ⟨hb0, hp⟩
            exact Or.inr (by omega)
        · rw [List.mem_singleton]
          constructor
          · rintro rfl
            exact ⟨0, by omega, by rw [hzero]⟩
          · rintro ⟨j, hj, rfl⟩
            obtain rfl : j = 0 := by omega
            rw [hzero]

/-- A scan that ends in time lets the loop return. -/
theorem putString_returns (h : Scans k c p precision n) (hn : n < fuel) :
    ∃ k', (putString c fuel p precision).run k = .ret () k' := by
  have hzero : p + BitVec.ofNat 32 0 = p := by simp
  induction n generalizing p precision k fuel with
  | zero =>
      obtain ⟨fuel, rfl⟩ := Nat.exists_eq_succ_of_ne_zero (by omega : fuel ≠ 0)
      obtain ⟨b, hb⟩ := h.readable 0 (by omega)
      have hends := h.ends
      rw [hzero] at hb hends
      have hstop : ¬ (b ≠ 0#8 ∧ (precision < 0 ∨ precision - 1 ≥ 0)) := by
        rintro ⟨hne, hprec⟩
        rcases hends with hend | hend
        · rw [hb] at hend
          exact hne (Option.some.inj hend)
        · omega
      unfold putString
      rw [Prog.run_bind_ret (loadByte_reads hb), if_neg hstop]
      exact ⟨_, rfl⟩
  | succ n ih =>
      obtain ⟨fuel, rfl⟩ := Nat.exists_eq_succ_of_ne_zero (by omega : fuel ≠ 0)
      obtain ⟨b, hb, hne, hprec, htail⟩ := h.tail
      have hgo : b ≠ 0#8 ∧ (precision < 0 ∨ precision - 1 ≥ 0) := ⟨hne, by omega⟩
      unfold putString
      rw [Prog.run_bind_ret (loadByte_reads hb), if_pos hgo,
        Prog.run_bind_ret (Prog.run_modify _ _)]
      exact ih (k := (k.log (.access p false)).putch b)
        ⟨htail.readable, htail.goesOn, htail.ends⟩ (by omega) (by simp)

/-- A zero byte in reach ends a scan at the latest. -/
theorem exists_scans {m : Nat}
    (hread : ∀ j, j ≤ m → ∃ b, k.userByte c (p + BitVec.ofNat 32 j) = some b)
    (hzero : k.userByte c (p + BitVec.ofNat 32 m) = some 0#8) :
    ∃ n, n ≤ m ∧ Scans k c p precision n := by
  have hex : ∃ n, k.userByte c (p + BitVec.ofNat 32 n) = some 0#8 ∨
      (0 ≤ precision ∧ precision ≤ (n : Int)) := ⟨m, Or.inl hzero⟩
  classical
  have hle : Nat.find hex ≤ m := Nat.find_min' hex (Or.inl hzero)
  refine ⟨Nat.find hex, hle, fun j hj => hread j (by omega), fun j hj => ?_, Nat.find_spec hex⟩
  have hmin := Nat.find_min hex hj
  rw [not_or] at hmin
  exact ⟨hmin.1, by omega⟩

/-- The kernel has read through user addresses only in the range. -/
def ReadsInside (s len : U32) (before after : List MemEvent) : Prop :=
  ∃ evs, after = evs ++ before ∧ ∀ va write, MemEvent.access va write ∈ evs →
    write = false ∧ s.toNat ≤ va.toNat ∧ va.toNat < s.toNat + len.toNat

theorem putNull_trace {precision : Int} :
    ∃ k', (putNull precision).run k = .ret () k' ∧ k'.trace = k.trace := by
  have h : ∀ (l : List U8) (k : Kernel), (l.foldl Kernel.putch k).trace = k.trace := by
    intro l
    induction l with
    | nil => exact fun _ => rfl
    | cons ch l ih => exact fun k => ih (k.putch ch)
  exact ⟨_, rfl, h _ k⟩

/-- A zero byte in the range. -/
def HasEnd (k : Kernel) (c : Nat) (s len : U32) : Prop :=
  ∃ n, n < len.toNat ∧ s.toNat + n < 2 ^ 32 ∧
    (∀ j, j ≤ n → ∃ b, k.userByte c (s + BitVec.ofNat 32 j) = some b) ∧
    k.userByte c (s + BitVec.ofNat 32 n) = some 0#8

theorem toNat_add_ofNat {j : Nat} (h : s.toNat + j < 2 ^ 32) :
    (s + BitVec.ofNat 32 j).toNat = s.toNat + j := by
  rw [BitVec.toNat_add, BitVec.toNat_ofNat]
  omega

/-- The loop stays in the range if and only if there is a zero byte in it. -/
theorem putString_inside :
    Returns (putString c (2 ^ 32) s len.toInt)
      (fun _ k' => ReadsInside s len k.trace k'.trace) k ↔ HasEnd k c s len := by
  have hlt := len.isLt
  rw [returns_iff]
  constructor
  · rintro ⟨⟨⟩, k', hrun, evs', htrace', hinside⟩
    obtain ⟨n, hn, hscans, evs, htrace, hevs⟩ := putString_ret hrun
    obtain rfl : evs' = evs := List.append_cancel_right (htrace'.symm.trans htrace)
    have hlast := (hinside _ _ ((hevs _).mpr ⟨n, Nat.le_refl n, rfl⟩)).2
    have hfits : s.toNat + n < 2 ^ 32 := by
      -- beyond the end of the address space the loop is below the range
      by_contra hover
      have hs := s.isLt
      rw [BitVec.toNat_add, BitVec.toNat_ofNat] at hlast
      omega
    rw [toNat_add_ofNat hfits] at hlast
    refine ⟨n, by omega, hfits, hscans.readable, hscans.ends.resolve_right (fun hend => ?_)⟩
    -- a precision that is not negative is the length
    rw [BitVec.toInt_eq_toNat_cond] at hend
    split at hend
    · omega
    · omega
  · rintro ⟨m, hm, hfits, hread, hzero⟩
    obtain ⟨n, hn, hscans⟩ : ∃ n, n ≤ m ∧ Scans k c s len.toInt n := exists_scans hread hzero
    have hfuel : n < 2 ^ 32 := by omega
    obtain ⟨k', hrun⟩ := putString_returns hscans hfuel
    obtain ⟨n', hn', hscans', evs, htrace, hevs⟩ := putString_ret hrun
    have hle : n' ≤ m := by
      by_contra hlt'
      exact (hscans'.goesOn m (by omega)).1 hzero
    refine ⟨(), k', hrun, evs, htrace, fun va write hmem => ?_⟩
    obtain ⟨j, hj, heq⟩ := (hevs _).mp hmem
    obtain ⟨rfl, rfl⟩ := MemEvent.access.inj heq
    rw [toNat_add_ofNat (by omega)]
    exact ⟨rfl, by omega, by omega⟩

/-- A check that came first does not count as a read. -/
theorem readsInside_checked {perm : U32} {before after evs : List MemEvent}
    (hafter : after = evs ++ .checked s len perm :: before) :
    ReadsInside s len before after ↔ ReadsInside s len (.checked s len perm :: before) after := by
  constructor
  · rintro ⟨evs', heq, hinside⟩
    refine ⟨evs, hafter, fun va write hmem => hinside va write ?_⟩
    have hevs : evs' = evs ++ [.checked s len perm] := by
      refine List.append_cancel_right (heq.symm.trans (hafter.trans ?_))
      rw [List.append_assoc]
      rfl
    rw [hevs]
    exact List.mem_append_left _ hmem
  · rintro ⟨evs', heq, hinside⟩
    refine ⟨evs' ++ [.checked s len perm], ?_, fun va write hmem => hinside va write ?_⟩
    · rw [heq, List.append_assoc]
      rfl
    · simpa using hmem

/-- `sys_cputs` of a range that passes the check reads only bytes of the range
if and only if the pointer is null or the range has a zero byte that is reached
without a fault. -/
theorem cputs_inside (hpass : k.Passes c s len (pteU ||| pteP)) :
    Returns (sysCputs c s len) (fun _ k' => ReadsInside s len k.trace k'.trace) k ↔
      s = 0#32 ∨ HasEnd k c s len := by
  obtain ⟨cur, d, m, hcur, hd, hcheck⟩ := hpass
  let k₁ := k.log (.checked s len (pteU ||| pteP ||| pteU))
  have hrun : (sysCputs c s len).run k = (if s = 0#32 then putNull len.toInt
      else putString c (2 ^ 32) s len.toInt).run k₁ := by
    unfold sysCputs
    rw [Prog.run_bind_ret (theCurenv_run hcur), Prog.run_bind_ret (userMemAssert_passes hd hcheck)]
  rw [returns_iff, hrun]
  by_cases hs : s = 0#32
  · rw [if_pos hs]
    obtain ⟨k', hnull, htrace⟩ :
        ∃ k', (putNull len.toInt).run k₁ = .ret () k' ∧ k'.trace = k₁.trace := putNull_trace
    refine ⟨fun _ => Or.inl hs, fun _ => ⟨(), k', hnull, [.checked s len _], htrace, ?_⟩⟩
    simp
  · rw [if_neg hs]
    have hsame : HasEnd k₁ c s len ↔ HasEnd k c s len := Iff.rfl
    rw [← hsame, ← putString_inside, returns_iff]
    have hiff : ∀ u k', (putString c (2 ^ 32) s len.toInt).run k₁ = .ret u k' →
        (ReadsInside s len k.trace k'.trace ↔ ReadsInside s len k₁.trace k'.trace) := by
      intro u k' hret
      obtain ⟨n, -, -, evs, htrace, -⟩ := putString_ret hret
      exact readsInside_checked htrace
    constructor
    · rintro ⟨u, k', hret, hinside⟩
      exact Or.inr ⟨u, k', hret, (hiff u k' hret).mp hinside⟩
    · rintro (hzero | ⟨u, k', hret, hinside⟩)
      · exact absurd hzero hs
      · exact ⟨u, k', hret, (hiff u k' hret).mpr hinside⟩

/-- `Kernel.Passes`, for machines that can be run. -/
def Kernel.passes (k : Kernel) (c : Nat) (va len perm : U32) : Bool :=
  (k.curenv c).any (fun e => (k.envs e).envPgdir.any (fun d =>
    match (userMemCheck d va len (perm ||| pteU)).run k.vm with
    | .ret r _ => decide (r = 0)
    | _ => false))

theorem Kernel.Passes.of_passes {va perm : U32} (h : k.passes c va len perm = true) :
    k.Passes c va len perm := by
  obtain ⟨e, he, h⟩ := (Option.any_eq_true _ _).mp h
  obtain ⟨d, hd, h⟩ := (Option.any_eq_true _ _).mp h
  split at h
  · rename_i r m hrun
    obtain rfl := of_decide_eq_true h
    exact ⟨e, d, m, he, hd, hrun⟩
  · cases h

/-- A page that is zero is an empty string. -/
theorem cputs_inside_empty : ∃ k, k.Passes 0 0x800000#32 1#32 (pteU ||| pteP) ∧
    Returns (sysCputs 0 0x800000#32 1#32)
      (fun _ k' => ReadsInside 0x800000#32 1#32 k.trace k'.trace) k := by
  have hsome : (execution 16 1 1 [.start 0, callEvent 0 4 0 0x800000#32 7 0 0]).any
      (fun k => k.passes 0 0x800000#32 1#32 (pteU ||| pteP) &&
        decide (k.userByte 0 0x800000#32 = some 0#8)) = true := by
    decide +kernel
  obtain ⟨k, -, hthen⟩ := (Option.any_eq_true _ _).mp hsome
  rw [Bool.and_eq_true] at hthen
  have hpass := Kernel.Passes.of_passes hthen.1
  have hbyte : k.userByte 0 (0x800000#32 + BitVec.ofNat 32 0) = some 0#8 :=
    of_decide_eq_true hthen.2
  refine ⟨k, hpass, (cputs_inside hpass).mpr (Or.inr ⟨0, by decide, by decide, ?_, hbyte⟩)⟩
  intro j hj
  obtain rfl : j = 0 := by omega
  exact ⟨_, hbyte⟩

/-- An empty range at the start of a page passes the check although nothing is
mapped there. -/
theorem emptyRange_passes : (execution 16 1 1 [.start 0]).any (fun k =>
    k.passes 0 0x1000#32 0#32 (pteU ||| pteP) &&
      match (sysCputs 0 0x1000#32 0#32).run k with
      | .ret _ _ => false
      | _ => true) = true := by
  decide +kernel

/-- The kernel faults there. -/
theorem cputs_outside : ∃ k, (∃ managed, RunOf managed (fun _ _ => True) k) ∧
    k.Passes 0 0x1000#32 0#32 (pteU ||| pteP) ∧
    (¬ ∃ k', (sysCputs 0 0x1000#32 0#32).run k = .ret () k') ∧
    ¬ Returns (sysCputs 0 0x1000#32 0#32)
      (fun _ k' => ReadsInside 0x1000#32 0#32 k.trace k'.trace) k := by
  obtain ⟨k, hk, hthen⟩ := (Option.any_eq_true _ _).mp emptyRange_passes
  rw [Bool.and_eq_true] at hthen
  have hno : ¬ ∃ k', (sysCputs 0 0x1000#32 0#32).run k = .ret () k' := by
    rintro ⟨k', hrun⟩
    rw [hrun] at hthen
    exact absurd hthen.2 (by simp)
  refine ⟨k, ⟨_, execution_runOf (by decide) (by decide) (fun _ _ _ => trivial) hk⟩,
    .of_passes hthen.1, hno, fun h => ?_⟩
  obtain ⟨⟨⟩, k', hrun, -⟩ := returns_iff.mp h
  exact hno ⟨k', hrun⟩

end Strings

end Jos

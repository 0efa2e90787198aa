import Jos.Grants
import Jos.PageCalls
import Mathlib.Order.Interval.Finset.Nat

/-!
# Reference counts

In a run of clean steps `pp_ref` is the number of references to a page, and no
free page is mapped.  The counter has 16 bits and nothing keeps it from
wrapping: one environment can map its stack page until `pp_ref` is 0 again.
-/

namespace Jos

open Programs LinkedList RefPool

/-- `pp_ref` of every page has its exact value, and a free page is mapped by no
one. -/
structure Kernel.RefsExact (managed : Set Nat) (k : Kernel) : Prop where
  exact : ∀ p, p ∈ managed →
    (k.vm.pages p).ppRef.toNat = refCount k.vm.mem (envDirs k) p
  unmapped : ∀ p, k.IsFree p → ¬ k.Maps p

/-- The system call of the step, if there is one, is one of those that allocate,
map and unmap pages. -/
def Event.CallsPages (k : Kernel) (ev : Event) : Prop :=
  ∀ k₀ c call, ev.Serves k k₀ c call →
    call.no = .pageAlloc ∨ call.no = .pageMap ∨ call.no = .pageUnmap

section Exact

variable {managed : Set Nat} {k : Kernel}

/-- In a run of clean steps no counter wraps, and no page is freed that is
mapped. -/
theorem refs_exact (h : RunOf managed (fun k ev => ev.Clean k) k) :
    k.RefsExact managed := by
  have hsound := h.sound (fun _ _ hok => hok)
  obtain ⟨free, hacc⟩ := hsound.memory.books.accounted
  constructor
  · intro p hp
    have hcount := hsound.memory.counts p
    rw [hacc.ledger.ref_eq p hp, BitVec.toNat_ofNat]
    omega
  · rintro p ⟨free', hchain, hmem⟩ hmaps
    obtain rfl := hchain.unique hacc.ledger.chain
    exact hacc.not_free (Or.inr hmaps) hmem

end Exact

/-- A machine starts with its first environment. -/
theorem refs_exact_start :
    ∃ k, execution 16 1 2 [.start 0] = some k ∧
      k.RefsExact {p | 0 < p ∧ p < 16} := by
  have hsome : (execution 16 1 2 [.start 0]).isSome := by decide +kernel
  obtain ⟨k, hk⟩ := Option.isSome_iff_exists.mp hsome
  refine ⟨k, hk, refs_exact (execution_runOf (by decide) (by decide) ?_ hk)⟩
  intro ev hev k
  obtain rfl := List.mem_singleton.mp hev
  exact (start_clean k 0).1

/-! ## A page mapped everywhere -/

/-- `sys_page_map` of the stack page at the page with number `n`. -/
def mapEvent (n : Nat) : Event :=
  callEvent 0 5 0 0xeebfd000#32 0 (BitVec.ofNat 32 (n * 4096)) 5

/-- Environment 0 runs alone, and maps page `p` as its stack and at the first
`n` pages, and nothing else. -/
structure Filling (managed : Set Nat) (p d n : Nat) (k : Kernel) : Prop where
  run : RunOf managed (fun k ev => ev.Clean k ∧ ev.CallsPages k) k
  cpu : 0 < k.ncpu
  place : (k.cpus 0).place = .user
  curenv : k.curenv 0 = some 0
  running : (k.envs 0).envStatus = .running
  pgdir : (k.envs 0).envPgdir = some d
  dirs : envDirs k = {d}
  pages : ∀ i j w, i < userPdes → j < nptentries → k.entry 0 i j = some w →
    pgnum w = p
  stack : (k.entry 0 0x3BA 0x3FD).isSome
  filled : ∀ i, i < n → (k.entry 0 (i / 1024) (i % 1024)).isSome
  empty : ∀ i, n ≤ i → i < 65536 → k.entry 0 (i / 1024) (i % 1024) = none

section Filling

variable {managed : Set Nat} {p d n : Nat} {k : Kernel}

theorem mapCount_le_refCount {mem : Mem} {dirs : Finset Nat} :
    mapCount mem dirs p ≤ refCount mem dirs p := by
  unfold refCount
  omega

/-- Clearing a slot that was empty changes no mapping. -/
theorem SlotCleared.mapCount_eq {free : List Nat} {held dirs : Finset Nat}
    {va : U32} {t pp : Nat} {m m' : PhysMem}
    (h : SlotCleared managed free held dirs d va t pp m m')
    (hempty : entryOf m.mem d (pdx va) (ptx va) = none) (q : Nat) :
    mapCount m'.mem dirs q = mapCount m.mem dirs q := by
  unfold mapCount
  rw [card_filter_congr (f := fun r : Nat × Nat × Nat =>
    mappedPage m.mem r.1 r.2.1 r.2.2) q ?_]
  rintro ⟨d', i, j⟩ hr
  obtain ⟨hd', hi, hj⟩ := mem_pteSlots.mp hr
  unfold mappedPage
  by_cases hne : d' = d ∧ i = pdx va ∧ j = ptx va
  · obtain ⟨rfl, rfl, rfl⟩ := hne
    simp only
    rw [h.empty, hempty]
  · simp only
    rw [h.entries d' i j hd' hi hj hne]

/-- The address of page `n`. -/
theorem pageVa_indices {va : U32} (hva : va = BitVec.ofNat 32 (n * 4096))
    (hn : n < 65536) : pdx va = n / 1024 ∧ ptx va = n % 1024 ∧ ¬ BadVa va := by
  have hnat : va.toNat = n * 4096 := by
    rw [hva, BitVec.toNat_ofNat]
    omega
  refine ⟨by rw [pdx_eq, hnat]; omega, by rw [ptx_eq, hnat]; omega, ?_⟩
  rintro (hutop | hround)
  · rw [BitVec.le_def, utop_toNat, hnat] at hutop
    omega
  · exact hround ((roundDown_eq_self va).mpr (by rw [hnat]; omega))

theorem Filling.sound (h : Filling managed p d n k) : Sound managed k :=
  h.run.sound (fun _ _ hok => hok.1)

/-- The entries of the directory are those of environment 0. -/
theorem Filling.entryOf_eq (h : Filling managed p d n k) (i j : Nat) :
    entryOf k.vm.mem d i j = k.entry 0 i j := by
  unfold Kernel.entry
  rw [h.pgdir]
  rfl

theorem Filling.page_managed (h : Filling managed p d n k) :
    p ∈ managed ∧ p < 2 ^ 20 := by
  obtain ⟨w, hw⟩ := Option.isSome_iff_exists.mp h.stack
  obtain ⟨free, hacc⟩ := h.sound.memory.books.accounted
  have hmanaged := hacc.spaces.page_managed d _ _ p
    (by rw [h.dirs]; exact Finset.mem_singleton_self d) (by decide) (by decide)
    (mappedPage_eq_some.mpr ⟨w, (h.entryOf_eq _ _).trans hw,
      h.pages _ _ w (by decide) (by decide) hw⟩)
  exact ⟨hmanaged, hacc.ledger.lt_two_pow hmanaged⟩

/-- The page is mapped at least `n + 1` times. -/
theorem Filling.lt_mapCount (h : Filling managed p d n k) (hn : n ≤ 65536) :
    n < mapCount k.vm.mem {d} p := by
  let slot : Nat → Nat × Nat × Nat := fun i => (d, i / 1024, i % 1024)
  have hinj : Function.Injective slot := by
    intro i j hij
    have hdiv : i / 1024 = j / 1024 := congrArg (fun r => r.2.1) hij
    have hmod : i % 1024 = j % 1024 := congrArg (fun r => r.2.2) hij
    omega
  have hstack : (d, 0x3BA, 0x3FD) ∉ (Finset.range n).image slot := by
    intro hmem
    obtain ⟨i, hi, heq⟩ := Finset.mem_image.mp hmem
    have hdiv : i / 1024 = 0x3BA := congrArg (fun r => r.2.1) heq
    rw [Finset.mem_range] at hi
    omega
  have hmapped : ∀ i j, i < userPdes → j < nptentries →
      (k.entry 0 i j).isSome → mappedPage k.vm.mem d i j = some p := by
    intro i j hi hj hsome
    obtain ⟨w, hw⟩ := Option.isSome_iff_exists.mp hsome
    exact mappedPage_eq_some.mpr ⟨w, (h.entryOf_eq i j).trans hw,
      h.pages i j w hi hj hw⟩
  have hsub : insert (d, 0x3BA, 0x3FD) ((Finset.range n).image slot) ⊆
      (pteSlots {d}).filter (fun r => mappedPage k.vm.mem r.1 r.2.1 r.2.2 =
        some p) := by
    intro r hr
    rw [Finset.mem_filter]
    rcases Finset.mem_insert.mp hr with rfl | hr
    · have hi : 0x3BA < userPdes := by decide
      have hj : 0x3FD < nptentries := by decide
      exact ⟨by simp [hi, hj], hmapped _ _ hi hj h.stack⟩
    · obtain ⟨i, hi, rfl⟩ := Finset.mem_image.mp hr
      rw [Finset.mem_range] at hi
      have hlo : i / 1024 < userPdes := by
        rw [userPdes_eq]
        omega
      have hhi : i % 1024 < nptentries := Nat.mod_lt _ (by decide)
      exact ⟨by simp [slot, hlo, hhi], hmapped _ _ hlo hhi (h.filled i hi)⟩
  have hcard := Finset.card_le_card hsub
  rw [Finset.card_insert_of_notMem hstack, Finset.card_image_of_injective _ hinj,
    Finset.card_range] at hcard
  exact hcard

/-- Pages in use are the directory, its page tables and the one page. -/
theorem Filling.free_ne_nil
    (h : Filling {q | 0 < q ∧ q < 1024} p d n k) : k.vm.pageFreeList ≠ none := by
  intro hnone
  obtain ⟨free, hacc⟩ := h.sound.memory.books.accounted
  obtain rfl : free = [] := by
    have hhead := hacc.ledger.freeList_eq
    rw [hnone] at hhead
    exact List.head?_eq_none_iff.mp hhead.symm
  rw [h.dirs] at hacc
  have hsub : Finset.Ioo 0 1024 ⊆ insert p (insert d ((Finset.range userPdes).image
      (fun i => (tableOf k.vm.mem d i).getD d))) := by
    intro q hq
    by_contra hout
    rw [Finset.mem_insert, Finset.mem_insert, not_or, not_or] at hout
    obtain ⟨hp, hd, htable⟩ := hout
    have hzero : refCount k.vm.mem {d} q = 0 := by
      have hmaps : mapCount k.vm.mem {d} q = 0 := by
        refine mapCount_eq_zero (fun d' i j hd' hi hj hpage => hp ?_)
        obtain rfl := Finset.mem_singleton.mp hd'
        obtain ⟨w, hw, rfl⟩ := mappedPage_eq_some.mp hpage
        exact h.pages i j w hi hj ((h.entryOf_eq i j).symm.trans hw)
      have htables : (pdeSlots {d}).filter
          (fun r => tableOf k.vm.mem r.1 r.2 = some q) = ∅ := by
        rw [Finset.filter_eq_empty_iff]
        rintro ⟨d', i⟩ hr ht
        obtain ⟨hd', hi⟩ := mem_pdeSlots.mp hr
        obtain rfl := Finset.mem_singleton.mp hd'
        refine htable (Finset.mem_image.mpr ⟨i, Finset.mem_range.mpr hi, ?_⟩)
        rw [ht]
        rfl
      unfold refCount
      rw [hmaps, htables, if_neg (fun hh => hd (Finset.mem_singleton.mp hh))]
      rfl
    have hfree := (hacc.ledger.pool.mem_free q (Finset.mem_Ioo.mp hq)).mpr
      ⟨hzero, by simp⟩
    exact absurd hfree (by simp)
  have hcard := Finset.card_le_card hsub
  have hmore := Finset.card_insert_le p (insert d ((Finset.range userPdes).image
    (fun i => (tableOf k.vm.mem d i).getD d)))
  have hdir := Finset.card_insert_le d ((Finset.range userPdes).image
    (fun i => (tableOf k.vm.mem d i).getD d))
  have htables := Finset.card_image_le (s := Finset.range userPdes)
    (f := fun i => (tableOf k.vm.mem d i).getD d)
  rw [Nat.card_Ioo] at hcard
  rw [Finset.card_range] at htables
  have huser := userPdes_eq
  omega

/-- Mapping the page once more succeeds. -/
theorem Filling.maps (h : Filling {q | 0 < q ∧ q < 1024} p d n k)
    (hn : n < 65536) : ∃ k' m, (mapEvent n).step k = some k' ∧
      PageInserted {q | 0 < q ∧ q < 1024} {d} d (BitVec.ofNat 32 (n * 4096)) 5 p
        k.vm m ∧ k'.vm.mem = m.mem ∧ k'.vm.pages = m.pages ∧ 0 < k'.ncpu ∧
      (k'.cpus 0).place = .user ∧ k'.curenv 0 = some 0 ∧
      (k'.envs 0).envStatus = .running ∧ (k'.envs 0).envPgdir = some d ∧
      envDirs k' = {d} := by
  have hsound := h.sound
  have ho := hsound.order
  have hstatus : (k.cpus 0).cpuStatus ≠ .halted := fun hh =>
    absurd (h.place.symm.trans ((ho.procs.halted 0).mp hh)) (by decide)
  let tf := syscallTf 5 0 0xeebfd000#32 0 (BitVec.ofNat 32 (n * 4096)) 5
  let call : Call := ⟨.pageMap, 0, 0xeebfd000#32, 0, BitVec.ofNat 32 (n * 4096), 5⟩
  let k₀ := (k.traps 0).saveTf 0 tf
  obtain ⟨hpdx, hptx, hva⟩ := pageVa_indices rfl hn
  obtain ⟨w, hw⟩ := Option.isSome_iff_exists.mp h.stack
  have hcur₀ : k₀.curenv 0 = some 0 := traps_curenv.trans h.curenv
  have hself : k₀.envOf 0 0#32 true = some 0 := envOf_zero hcur₀
  have hsame : SamePages k k₀ :=
    samePages_traps.trans (samePages_edit rfl rfl rfl Iff.rfl)
  have hm₀ : Memory {q | 0 < q ∧ q < 1024} k₀ :=
    hsound.memory.congr hsame.mem hsame.table
  have hlive₀ : k₀.Live 0 := by
    refine ⟨by decide, ?_⟩
    rw [ne_eq, hsame.table.free, h.running]
    decide
  have hd₀ : (k₀.envs 0).envPgdir = some d := (hsame.table.pgdir 0).trans h.pgdir
  have hw₀ : k₀.entry 0 (pdx 0xeebfd000#32) (ptx 0xeebfd000#32) = some w :=
    hsame.entry.trans hw
  obtain ⟨r, m, hrun, hres⟩ := sysPageMap_run hm₀ hself hlive₀ hself hlive₀ hd₀
    (by decide) hva hw₀ (show (5#32 : U32) &&& permFlags = permFlags by decide)
    (fun hh => absurd hh (by decide))
  have hstep : (mapEvent n).step k = some (((k₀.setVm m).result 0 r).dispatched 0 0 d) :=
    Event.trap_returns h.cpu h.place (by decide : initialTf.FromUser)
      hsound.outside.lock hstatus h.curenv h.running h.pgdir rfl
      (show _ = some call from rfl) hrun
      (sameProcs_setVm m)
  have hdirs₀ : envDirs k₀ = {d} := hsame.table.envDirs_eq.trans h.dirs
  have hp : pgnum w = p := h.pages _ _ w (by decide) (by decide) hw
  rcases hres with ⟨-, -, hnone, -⟩ | ⟨-, hins⟩
  · exact absurd (hsame.mem.freeList.symm.trans hnone) h.free_ne_nil
  · rw [hdirs₀, hp] at hins
    refine ⟨_, m, hstep, hins, rfl, rfl, h.cpu, ?_, dispatched_curenv_self,
      dispatched_status_self, ?_, ?_⟩
    · simp [Kernel.dispatched]
    · rw [dispatched_envs, Kernel.result, Kernel.modifyEnv_envs_self]
      exact hd₀
    · refine Eq.trans (envDirs_congr (fun e _ => ?_)) hdirs₀
      rw [dispatched_envs]
      by_cases he : e = 0
      · subst he
        rw [Kernel.result, Kernel.modifyEnv_envs_self]
        rfl
      · rw [Kernel.result, Kernel.modifyEnv_envs_of_ne he]
        rfl

theorem mapEvent_callsPages (k : Kernel) (n : Nat) : (mapEvent n).CallsPages k := by
  intro k₀ c call hserves
  cases hserves with
  | trap _ _ _ hcall =>
      obtain rfl := Option.some.inj hcall
      exact Or.inr (Or.inl rfl)

/-- Mapping the page is clean as long as its counter has room. -/
theorem Filling.mapEvent_clean (h : Filling managed p d n k)
    (href : (k.vm.pages p).ppRef ≠ 0xFFFF#16) : (mapEvent n).Clean k := by
  let call : Call := ⟨.pageMap, 0, 0xeebfd000#32, 0, BitVec.ofNat 32 (n * 4096), 5⟩
  refine trap_clean (show _ = some call from rfl)
    (fun _ _ => Call.fair_of_page (Or.inr (Or.inl rfl))) (fun cur hcur op hop => ?_)
  obtain rfl := Option.some.inj (hcur.symm.trans h.curenv)
  cases hop with
  | pageAlloc hno _ _ => cases hno
  | @pageMap se de _ hse _ _ _ =>
      have hcur₀ : ((k.traps 0).saveTf 0 (syscallTf 5 0 0xeebfd000#32 0
          (BitVec.ofNat 32 (n * 4096)) 5)).curenv 0 = some 0 :=
        traps_curenv.trans hcur
      obtain rfl : 0 = se := Option.some.inj ((envOf_zero hcur₀).symm.trans hse)
      intro ds w hds hw
      rw [Kernel.saveTf, Kernel.modifyEnv_envs_self] at hds
      obtain rfl : d = ds := Option.some.inj (h.pgdir.symm.trans hds)
      have hentry : k.entry 0 (pdx call.a2) (ptx call.a2) = some w :=
        (h.entryOf_eq _ _).symm.trans hw
      have hp : pgnum w = p :=
        h.pages _ _ w (by decide : pdx 0xeebfd000#32 < userPdes) (ptx_lt _) hentry
      rw [hp]
      exact ⟨permFits_of_lt h.page_managed.2 (by decide : (5#32).toNat < 4096), href⟩
  | pageUnmap _ _ _ => trivial
  | ipcTrySend hno _ _ _ _ _ => cases hno
  | setTrapframe hno _ => cases hno
  | pktRecv hno => cases hno

/-- One more page is filled. -/
theorem Filling.succ (h : Filling {q | 0 < q ∧ q < 1024} p d n k)
    (hn : n < 65536) (href : (k.vm.pages p).ppRef ≠ 0xFFFF#16) :
    ∃ k', Filling {q | 0 < q ∧ q < 1024} p d (n + 1) k' := by
  obtain ⟨k', m, hstep, hins, hmem, -, hcpu, hplace, hcur, hrunning, hpgdir, hdirs⟩ :=
    h.maps hn
  obtain ⟨hpdx, hptx, hva⟩ := pageVa_indices rfl hn
  have hutop : BitVec.ofNat 32 (n * 4096) < utop :=
    BitVec.not_le.mp (fun hle => hva (Or.inl hle))
  have hdir : d ∈ ({d} : Finset Nat) := Finset.mem_singleton_self d
  have hentry : ∀ i j, k'.entry 0 i j = entryOf m.mem d i j := by
    intro i j
    unfold Kernel.entry
    rw [hpgdir, hmem]
    rfl
  have hhere : k'.entry 0 (n / 1024) (n % 1024) =
      some (page2pa p ||| 5#32 ||| pteP) := by
    rw [hentry, ← hpdx, ← hptx]
    exact hins.entry_self hdir hutop
  have hrest : ∀ i j, i < userPdes → j < nptentries →
      ¬ (i = n / 1024 ∧ j = n % 1024) → k'.entry 0 i j = k.entry 0 i j := by
    intro i j hi hj hne
    rw [hentry, ← h.entryOf_eq]
    exact hins.entry_of_ne hdir hutop hdir hi hj
      (by rw [hpdx, hptx]; exact fun hh => hne hh.2)
  have hslot : ∀ i, i < 65536 → i / 1024 < userPdes ∧ i % 1024 < nptentries := by
    intro i hi
    rw [userPdes_eq]
    exact ⟨by omega, Nat.mod_lt _ (by decide)⟩
  have hclean := h.mapEvent_clean href
  refine ⟨k', h.run.step _ ⟨hclean, mapEvent_callsPages k n⟩ hstep, hcpu, hplace,
    hcur, hrunning, hpgdir, hdirs, ?_, ?_, ?_, ?_⟩
  · intro i j w hi hj hw
    by_cases hne : i = n / 1024 ∧ j = n % 1024
    · obtain ⟨rfl, rfl⟩ := hne
      obtain rfl := Option.some.inj (hhere.symm.trans hw)
      exact permFits_of_lt h.page_managed.2 (by decide)
    · exact h.pages i j w hi hj ((hrest i j hi hj hne).symm.trans hw)
  · rw [hrest _ _ (by decide) (by decide) (by omega)]
    exact h.stack
  · intro i hi
    by_cases hin : i = n
    · rw [hin, hhere]
      rfl
    · obtain ⟨hlo, hhi⟩ := hslot i (by omega)
      rw [hrest _ _ hlo hhi (by omega)]
      exact h.filled i (by omega)
  · intro i hi hmax
    obtain ⟨hlo, hhi⟩ := hslot i hmax
    rw [hrest _ _ hlo hhi (by omega)]
    exact h.empty i (by omega) hmax

/-- The counter reaches its largest value. -/
theorem Filling.full (h : Filling {q | 0 < q ∧ q < 1024} p d 0 k) :
    ∃ k n, n < 65536 ∧ Filling {q | 0 < q ∧ q < 1024} p d n k ∧
      (k.vm.pages p).ppRef = 0xFFFF#16 := by
  have hfill : ∀ n, n < 65536 → (∃ k, Filling {q | 0 < q ∧ q < 1024} p d n k) ∨
      ∃ k n, n < 65536 ∧ Filling {q | 0 < q ∧ q < 1024} p d n k ∧
        (k.vm.pages p).ppRef = 0xFFFF#16 := by
    intro n
    induction n with
    | zero => exact fun _ => Or.inl ⟨k, h⟩
    | succ n ih =>
        intro hn
        rcases ih (by omega) with ⟨k₁, h₁⟩ | hfull
        · by_cases href : (k₁.vm.pages p).ppRef = 0xFFFF#16
          · exact Or.inr ⟨k₁, n, by omega, h₁, href⟩
          · exact Or.inl (h₁.succ (by omega) href)
        · exact Or.inr hfull
  rcases hfill 65535 (by decide) with ⟨k₁, h₁⟩ | hfull
  · -- more mappings than the counter can count
    have hlt := h₁.lt_mapCount (by decide)
    have hle := h₁.sound.memory.counts p
    have hsum : mapCount k₁.vm.mem {d} p ≤ refCount k₁.vm.mem {d} p :=
      mapCount_le_refCount
    rw [h₁.dirs] at hle
    omega
  · exact hfull

/-- One mapping more than the counter can count, and it is 0. -/
theorem Filling.wraps (h : Filling {q | 0 < q ∧ q < 1024} p d n k)
    (hn : n < 65536) (href : (k.vm.pages p).ppRef = 0xFFFF#16) :
    ∃ k', (mapEvent n).step k = some k' ∧ (k'.vm.pages p).ppRef = 0#16 ∧
      0 < refCount k'.vm.mem (envDirs k') p := by
  obtain ⟨k', m, hstep, hins, hmem, hpages, -, -, -, -, hpgdir, hdirs⟩ := h.maps hn
  obtain ⟨hpdx, hptx, hva⟩ := pageVa_indices rfl hn
  have hutop : BitVec.ofNat 32 (n * 4096) < utop :=
    BitVec.not_le.mp (fun hle => hva (Or.inl hle))
  have hdir : d ∈ ({d} : Finset Nat) := Finset.mem_singleton_self d
  have hpm := h.page_managed.1
  have hmem' : k'.vm.mem = m.mem := hmem
  refine ⟨k', hstep, ?_, ?_⟩
  · obtain ⟨free, hacc⟩ := h.sound.memory.books.accounted
    rw [h.dirs] at hacc
    have hcounts := h.sound.memory.counts p
    rw [h.dirs] at hcounts
    have hfull : refCount k.vm.mem {d} p = 65535 := by
      have hnat := congrArg BitVec.toNat ((hacc.ledger.ref_eq p hpm).symm.trans href)
      rw [BitVec.toNat_ofNat] at hnat
      change _ = 65535 at hnat
      omega
    have hmaps := hacc.spaces.refCount_le p
    obtain ⟨t, free', m₂, rfl, hcleared⟩ := hins
    have hempty : entryOf k.vm.mem d (pdx (BitVec.ofNat 32 (n * 4096)))
        (ptx (BitVec.ofNat 32 (n * 4096))) = none := by
      rw [hpdx, hptx, h.entryOf_eq]
      exact h.empty n (Nat.le_refl n) hn
    have hsame := hcleared.mapCount_eq hempty p
    have hle := hcleared.counts p
    have hge : mapCount m₂.mem {d} p ≤ refCount m₂.mem {d} p := mapCount_le_refCount
    have hcount : refCount m₂.mem {d} p = 65535 := by
      rw [hfull] at hle hmaps
      rw [hsame] at hge
      clear href hcounts hn
      omega
    have hwrapped := hcleared.ledger.ref_eq p hpm
    rw [incr, Function.update_self, hcount] at hwrapped
    rw [hpages]
    exact hwrapped
  · rw [hdirs, hmem']
    refine refCount_pos_of_page hdir (i := n / 1024) (j := n % 1024)
      (by rw [userPdes_eq]; omega) (Nat.mod_lt _ (by decide))
      (mappedPage_eq_some.mpr ⟨_, ?_, permFits_of_lt h.page_managed.2
        (show (5#32 : U32).toNat < 4096 by decide)⟩)
    rw [← hpdx, ← hptx]
    exact hins.entry_self hdir hutop

end Filling

/-- The first environment has started: its directory is page 1, and the only
page it maps is page 2. -/
theorem filling_start : ∃ k, Filling {q | 0 < q ∧ q < 1024} 2 1 0 k := by
  have hsome : (execution 1024 1 1 [.start 0]).any (fun (k : Kernel) =>
      decide (0 < k.ncpu ∧ (k.cpus 0).place = .user ∧ k.curenv 0 = some 0 ∧
        (k.envs 0).envStatus = .running ∧ (k.envs 0).envPgdir = some 1 ∧
        (entryOf k.vm.mem 1 0x3BA 0x3FD).isSome) &&
      (List.range nenv).all (fun e => decide (e ≠ 0 → (k.envs e).envPgdir = none)) &&
      (List.range userPdes).all (fun i =>
        decide (i ≠ 0x3BA → tableOf k.vm.mem 1 i = none)) &&
      (List.range nptentries).all (fun j =>
        (entryOf k.vm.mem 1 0x3BA j).all (fun w => pgnum w == 2))) = true := by
    decide +kernel
  obtain ⟨k, hk, hthen⟩ := (Option.any_eq_true _ _).mp hsome
  obtain ⟨hthen, hpages⟩ := Bool.and_eq_true_iff.mp hthen
  obtain ⟨hthen, htables⟩ := Bool.and_eq_true_iff.mp hthen
  obtain ⟨hthen, henvs⟩ := Bool.and_eq_true_iff.mp hthen
  obtain ⟨hcpu, hplace, hcur, hrunning, hpgdir, hstack⟩ := of_decide_eq_true hthen
  rw [List.all_eq_true] at hpages htables henvs
  have hentry : ∀ i j, k.entry 0 i j = entryOf k.vm.mem 1 i j := by
    intro i j
    unfold Kernel.entry
    rw [hpgdir]
    rfl
  have hnone : ∀ i j, i < userPdes → i ≠ 0x3BA → k.entry 0 i j = none := by
    intro i j hi hne
    rw [hentry]
    exact entryOf_of_no_table
      (of_decide_eq_true (htables i (List.mem_range.mpr hi)) hne)
  refine ⟨k, execution_runOf (by decide) (by decide) ?_ hk, hcpu, hplace, hcur,
    hrunning, hpgdir, ?_, ?_, ?_, fun i hi => absurd hi (Nat.not_lt_zero i), ?_⟩
  · intro ev hev k
    obtain rfl := List.mem_singleton.mp hev
    exact ⟨(start_clean k 0).1, fun _ _ _ h => nomatch h⟩
  · ext d
    rw [mem_envDirs, Finset.mem_singleton]
    constructor
    · rintro ⟨e, he, hd⟩
      by_cases hne : e = 0
      · subst hne
        exact (Option.some.inj (hpgdir.symm.trans hd)).symm
      · have hgone := of_decide_eq_true (henvs e (List.mem_range.mpr he)) hne
        exact absurd (hgone.symm.trans hd) (by simp)
    · rintro rfl
      exact ⟨0, by decide, hpgdir⟩
  · intro i j w hi hj hw
    by_cases hne : i = 0x3BA
    · subst hne
      have hall := hpages j (List.mem_range.mpr hj)
      rw [← hentry, hw, Option.all_some] at hall
      exact beq_iff_eq.mp hall
    · exact absurd ((hnone i j hi hne).symm.trans hw) (by simp)
  · rw [hentry]
    exact hstack
  · intro i _ hi
    exact hnone _ _ (by rw [userPdes_eq]; omega) (by omega)

/-- With enough calls the counter of a mapped page is 0. -/
theorem not_refs_exact :
    ¬ ∀ (managed : Set Nat) (k : Kernel),
      RunOf managed (fun k ev => ev.CallsPages k) k → k.RefsExact managed := by
  intro hall
  obtain ⟨k, hk⟩ := filling_start
  obtain ⟨k₁, n, hn, h₁, href⟩ := hk.full
  obtain ⟨k₂, hstep, hzero, hpos⟩ := h₁.wraps hn href
  have hexact := (hall _ k₂ (.step _ (h₁.run.mono (fun _ _ hok => hok.2))
    (mapEvent_callsPages k₁ n) hstep)).exact 2 h₁.page_managed.1
  rw [hzero] at hexact
  change 0 = _ at hexact
  omega

end Jos

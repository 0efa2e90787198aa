import Jos.KernLayout

/-!
# `mmio_map_region`

A call reserves the next pages of the MMIO region and maps device memory there.
The address it returns is that of the first page, also when the device memory
starts inside a page.  What is reserved is computed with 32 bits: a range of
almost 4 GB has length 0, and the sum with the cursor may pass the limit by
wrapping around.
-/

namespace Jos

open Programs

/-- `PTE_PWT`. -/
def ptePwt : U32 := 0x008#32

/-- `PTE_PCD`. -/
def ptePcd : U32 := 0x010#32

/-- Memory, and the static variable of `mmio_map_region`. -/
structure MmioState where
  vm : PhysMem
  base : U32

/-- `mmio_map_region`. -/
@[irreducible] def mmioMapRegion (pa size : U32) : Prog MmioState U32 := do
  let fin := roundUp (pa + size) pgsize
  let start := roundDown pa pgsize
  let size := fin - start
  let s ← Prog.get
  if mmiolim ≤ s.base + size then Prog.stop
  else do
    (bootMapRegion s.vm.kernPgdir s.base size start (ptePcd ||| ptePwt ||| pteW)).zoom
      (fun s => s.vm) (fun vm s => { s with vm := vm })
    Prog.modify (fun s => { s with base := s.base + size })
    let s ← Prog.get
    pure (s.base - size)

/-! ## What a call is to do -/

/-- A call that returned. -/
structure MmioCall where
  pa : U32
  size : U32
  ret : U32

/-- What the claim on a call says, with the calls before it. -/
structure MmioMapped (before : List MmioCall) (s : MmioState) (call : MmioCall)
    (s' : MmioState) : Prop where
  inside : ∀ i, i < call.size.toNat →
    mmiobase.toNat ≤ call.ret.toNat + i ∧ call.ret.toNat + i < mmiolim.toNat
  disjoint : ∀ old, old ∈ before → ∀ i j, i < call.size.toNat → j < old.size.toNat →
    call.ret.toNat + i ≠ old.ret.toNat + j
  translated : ∀ i, i < call.size.toNat →
    s'.vm.physAddr s'.vm.kernPgdir (call.ret + BitVec.ofNat 32 i) =
      some (call.pa + BitVec.ofNat 32 i).toNat
  unchanged : ∀ old, old ∈ before → ∀ j, j < old.size.toNat →
    s'.vm.physAddr s'.vm.kernPgdir (old.ret + BitVec.ofNat 32 j) =
      s.vm.physAddr s.vm.kernPgdir (old.ret + BitVec.ofNat 32 j)

/-- The length of the pages of device memory. -/
def mmioLength (pa size : U32) : Nat := (pgoff pa + size.toNat + 4095) / 4096 * 4096

/-- The call asks for nothing, or its sum with the cursor reaches the limit, or the
device memory starts with a page and its pages fit. -/
def MmioState.Fits (s : MmioState) (pa size : U32) : Prop :=
  size = 0#32 ∨ mmiolim.toNat ≤ (s.base.toNat + mmioLength pa size) % 2 ^ 32 ∨
    pgoff pa = 0 ∧ s.base.toNat + mmioLength pa size < mmiolim.toNat

/-- Calls one after another that all fit, with the last one first. -/
inductive MmioRun (s₀ : MmioState) : List MmioCall → MmioState → Prop where
  | start : MmioRun s₀ [] s₀
  | call {before : List MmioCall} {s s' : MmioState} {pa size ret : U32} :
      MmioRun s₀ before s → s.Fits pa size → (mmioMapRegion pa size).run s = .ret ret s' →
      MmioRun s₀ (⟨pa, size, ret⟩ :: before) s'

/-- `kern_pgdir` is the kernel's, and the cursor is at a page of the MMIO region. -/
structure MmioState.Ready (s : MmioState) : Prop where
  mapping : ∃ d pages l, Mapping False d pages l s.vm
  aligned : s.base.toNat % 4096 = 0
  above : mmiobase.toNat ≤ s.base.toNat
  below : s.base.toNat < mmiolim.toNat

section Regions

variable {ok : Prop} {d : Nat} {pages : Nat → Prop} {l : Layout} {s s' s₀ : MmioState}
  {pa size ret : U32} {before : List MmioCall}

theorem mmiobase_toNat : mmiobase.toNat = 958 * 1024 * 4096 := by decide

theorem mmiolim_toNat : mmiolim.toNat = 959 * 1024 * 4096 := by decide

theorem mmiobase_aligned : mmiobase.toNat % 4096 = 0 := by decide

theorem mmiobase_lt : mmiobase.toNat < mmiolim.toNat := by decide

/-- `ROUNDUP`, whether it wraps or not. -/
theorem roundUp_mod (a : U32) :
    (roundUp a pgsize).toNat = (a.toNat + 4095) / 4096 * 4096 % 2 ^ 32 := by
  have hlt := a.isLt
  by_cases h : a.toNat + 4095 < 2 ^ 32
  · rw [roundUp_toNat h]
    omega
  · rw [roundUp_wraps (by omega), BitVec.toNat_ofNat]
    omega

/-- The length that is reserved is the one of the pages, modulo 2^32. -/
theorem reserved_toNat (pa size : U32) :
    (roundUp (pa + size) pgsize - roundDown pa pgsize).toNat =
      mmioLength pa size % 2 ^ 32 := by
  have hpa := pa.isLt
  have hsize := size.isLt
  rw [BitVec.toNat_sub, roundUp_mod, roundDown_toNat, BitVec.toNat_add, mmioLength, pgoff_eq]
  omega

/-- A call whose pages fit maps them. -/
theorem mmioMapRegion_wp (h : Mapping ok d pages l s.vm) (ha : s.base.toNat % 4096 = 0)
    (hlow : mmiobase.toNat ≤ s.base.toNat)
    (hfits : s.base.toNat + mmioLength pa size < mmiolim.toNat) :
    wp (mmioMapRegion pa size) (Unless ok (fun ret s' => ret = s.base ∧
      s'.base.toNat = s.base.toNat + mmioLength pa size ∧
      Mapping ok d pages (l.region (s.base.toNat / 4096) (mmioLength pa size / 4096)
        (pgnum pa) (ptePcd ||| ptePwt ||| pteW)) s'.vm)) s := by
  have hlim := mmiolim_toNat
  have hbase := mmiobase_toNat
  have hlen : mmioLength pa size % 4096 = 0 := by
    unfold mmioLength
    omega
  have hreserved := reserved_toNat pa size
  rw [Nat.mod_eq_of_lt (by omega)] at hreserved
  have hsum : (s.base + (roundUp (pa + size) pgsize - roundDown pa pgsize)).toNat =
      s.base.toNat + mmioLength pa size := by
    rw [BitVec.toNat_add, hreserved]
    omega
  have hdir : s.vm.kernPgdir = d := h.choose_spec.1.kernPgdir
  have hstart : roundDown pa pgsize = page2pa (pgnum pa) := by
    apply BitVec.eq_of_toNat_eq
    have hlt := pa.isLt
    rw [roundDown_toNat, pgnum_eq, page2pa_toNat (by omega)]
  unfold mmioMapRegion
  rw [wp_get_bind, if_neg (by rw [BitVec.le_def, hsum]; omega), wp_bind, wp_zoom, hdir, hstart]
  generalize hv : s.base.toNat / 4096 = v
  generalize hn : mmioLength pa size / 4096 = n
  have hrange : KernRange v n := by
    refine ⟨?_, by omega, Or.inr ?_⟩
    · rw [userPdes_eq]
      omega
    · obtain ⟨-, -, huvpt, -, -⟩ := pdx_windows
      rw [huvpt]
      omega
  have hva : s.base.toNat = v * 4096 := by omega
  have hsize : (roundUp (pa + size) pgsize - page2pa (pgnum pa)).toNat = n * 4096 := by
    rw [← hstart, hreserved]
    omega
  have hnext : (s.base + (roundUp (pa + size) pgsize - page2pa (pgnum pa))).toNat =
      s.base.toNat + mmioLength pa size := by
    rw [← hstart]
    exact hsum
  -- the lengths are not to be computed
  generalize roundUp (pa + size) pgsize - page2pa (pgnum pa) = w at hsize hnext ⊢
  refine wp_mono (bootMapRegion_wp h hrange hva hsize) ?_ (fun _ hh => hh) (fun _ hh => hh)
  rintro _ m ⟨-, hm⟩
  exact ⟨BitVec.add_sub_cancel _ _, hnext, hm⟩

/-- A call whose pages do not fit panics. -/
theorem mmioMapRegion_stops
    (h : mmiolim.toNat ≤ (s.base.toNat + mmioLength pa size) % 2 ^ 32) :
    wp (mmioMapRegion pa size) (Unless False (fun _ _ => False)) s := by
  have hsum : (s.base + (roundUp (pa + size) pgsize - roundDown pa pgsize)).toNat =
      (s.base.toNat + mmioLength pa size) % 2 ^ 32 := by
    rw [BitVec.toNat_add, reserved_toNat]
    omega
  unfold mmioMapRegion
  rw [wp_get_bind, if_pos (by rw [BitVec.le_def, hsum]; exact h)]
  exact wp_stop.mpr not_false

/-- Where the layout is the same, so is the translation. -/
theorem KernSpace.physAddr_congr {l' : Layout} {free free' : List Nat} {m m' : PhysMem} {va : U32}
    (h : KernSpace d pages l free m) (h' : KernSpace d pages l' free' m')
    (hne : pdx va ≠ pdx uvpt) (heq : l' (pdx va) (ptx va) = l (pdx va) (ptx va)) :
    m'.physAddr d va = m.physAddr d va := by
  unfold PhysMem.physAddr PhysMem.kernelPage
  rw [h.entryOf_eq hne, h'.entryOf_eq hne, heq]
  by_cases hf : HasFlag (l (pdx va) (ptx va)) pteP
  · simp [hf]
  · simp [hf]

/-- A program that stops or returns. -/
theorem unless_false {σ α : Type} {p : Prog σ α} {t : σ} {R : α → σ → Prop}
    (h : wp p (Unless False R) t) :
    (∃ t', p.run t = .stop t') ∨ ∃ a t', p.run t = .ret a t' ∧ R a t' := by
  unfold wp at h
  cases hrun : p.run t with
  | ret a t' =>
      rw [hrun] at h
      exact Or.inr ⟨a, t', rfl, h⟩
  | exit t' =>
      rw [hrun] at h
      exact h.elim
  | stop t' => exact Or.inl ⟨t', rfl⟩

/-- A call that fits panics, or its pages fit below the limit. -/
theorem MmioState.Fits.cases (h : s.Fits pa size) (hready : s.Ready) :
    mmiolim.toNat ≤ (s.base.toNat + mmioLength pa size) % 2 ^ 32 ∨
      (size = 0#32 ∨ pgoff pa = 0) ∧ s.base.toNat + mmioLength pa size < mmiolim.toNat := by
  have hlim := mmiolim_toNat
  have hbelow := hready.below
  have haligned := hready.aligned
  rcases h with rfl | hlimit | ⟨hpage, hfits⟩
  · have hoff : pgoff pa < 4096 := by
      rw [pgoff_eq]
      omega
    have hlen : mmioLength pa 0#32 ≤ 4096 := by
      rw [mmioLength, BitVec.toNat_ofNat]
      omega
    by_cases hlt : s.base.toNat + mmioLength pa 0#32 < mmiolim.toNat
    · exact Or.inr ⟨Or.inl rfl, hlt⟩
    · left
      omega
  · exact Or.inl hlimit
  · exact Or.inr ⟨Or.inr hpage, hfits⟩

/-- What a call that fits does, when it returns. -/
structure MmioStep (s : MmioState) (pa size : U32) (s' : MmioState) : Prop where
  ready : s'.Ready
  base : s'.base.toNat = s.base.toNat + mmioLength pa size
  page : size = 0#32 ∨ pgoff pa = 0
  layout : ∃ d pages l, Mapping False d pages l s.vm ∧
    Mapping False d pages (l.region (s.base.toNat / 4096) (mmioLength pa size / 4096)
      (pgnum pa) (ptePcd ||| ptePwt ||| pteW)) s'.vm

theorem MmioState.Ready.call (h : s.Ready) (hfits : s.Fits pa size) :
    (∃ t, (mmioMapRegion pa size).run s = .stop t) ∨
      ∃ s', (mmioMapRegion pa size).run s = .ret s.base s' ∧ MmioStep s pa size s' := by
  rcases hfits.cases h with hlimit | ⟨hpage, hroom⟩
  · rcases unless_false (mmioMapRegion_stops hlimit) with hstop | ⟨-, -, -, hfalse⟩
    · exact Or.inl hstop
    · exact hfalse.elim
  · obtain ⟨d, pages, l, hmap⟩ := h.mapping
    rcases unless_false (mmioMapRegion_wp hmap h.aligned h.above hroom) with
      hstop | ⟨ret, s', hrun, rfl, hbase, hmap'⟩
    · exact Or.inl hstop
    · have haligned := h.aligned
      have habove := h.above
      have hlen : mmioLength pa size % 4096 = 0 := by
        unfold mmioLength
        omega
      exact Or.inr ⟨s', hrun, ⟨⟨d, pages, _, hmap'⟩, by omega, by omega, by omega⟩, hbase, hpage,
        d, pages, l, hmap, hmap'⟩

theorem mmioLength_ge (pa size : U32) : size.toNat ≤ mmioLength pa size := by
  unfold mmioLength
  omega

theorem mmioLength_pages (pa size : U32) :
    mmioLength pa size / 4096 * 4096 = mmioLength pa size := by
  unfold mmioLength
  omega

/-- The sum of a page's address and an offset, with 32 bits. -/
theorem page_add {a i : Nat} (ha : a % 4096 = 0) :
    (a / 4096 + i / 4096) % 2 ^ 20 * 4096 + i % 4096 = (a + i % 2 ^ 32) % 2 ^ 32 := by
  omega

/-- What is found in the pages of a call. -/
theorem region_translated {m : PhysMem} {base : U32}
    (h : Mapping ok d pages (l.region (base.toNat / 4096) (mmioLength pa size / 4096)
      (pgnum pa) (ptePcd ||| ptePwt ||| pteW)) m)
    (haligned : base.toNat % 4096 = 0) (habove : mmiobase.toNat ≤ base.toNat)
    (hbelow : base.toNat + mmioLength pa size < mmiolim.toNat) {i : Nat}
    (hi : i < mmioLength pa size) :
    m.physAddr m.kernPgdir (base + BitVec.ofNat 32 i) =
      some ((pgnum pa + i / 4096) % 2 ^ 20 * 4096 + i % 4096) := by
  have hlim := mmiolim_toNat
  have hbase := mmiobase_toNat
  obtain ⟨free, hspace, -⟩ := h
  obtain ⟨hnum, hoff⟩ := address_range (v := base.toNat / 4096) (i := i)
    (show base.toNat = base.toNat / 4096 * 4096 by omega) (by omega)
  have hptx := ptx_lt (base + BitVec.ofNat 32 i)
  obtain ⟨-, -, huvpt, -, -⟩ := pdx_windows
  rw [hspace.kernPgdir]
  generalize base + BitVec.ofNat 32 i = va at hnum hoff hptx ⊢
  have hframe : page2pa (pgnum pa + i / 4096) = page2pa ((pgnum pa + i / 4096) % 2 ^ 20) := by
    apply BitVec.eq_of_toNat_eq
    unfold page2pa
    rw [BitVec.toNat_shiftLeft, BitVec.toNat_shiftLeft, BitVec.toNat_ofNat, BitVec.toNat_ofNat,
      Nat.shiftLeft_eq, Nat.shiftLeft_eq]
    omega
  have hlen := mmioLength_pages pa size
  have hword : l.region (base.toNat / 4096) (mmioLength pa size / 4096) (pgnum pa)
      (ptePcd ||| ptePwt ||| pteW) (pdx va) (ptx va) =
      page2pa ((pgnum pa + i / 4096) % 2 ^ 20) ||| pteP ||| (ptePcd ||| ptePwt ||| pteW) := by
    unfold Layout.region
    rw [if_pos ⟨by omega, by omega⟩, hnum, Nat.add_sub_cancel_left, hframe]
  rw [hspace.physAddr_some (by rw [huvpt]; omega) (Nat.mod_lt _ (by decide)) (by decide) hword,
    hoff]

/-- The device memory is found at the address that is returned. -/
theorem MmioStep.translated (h : MmioStep s pa size s') (hready : s.Ready) {i : Nat}
    (hi : i < size.toNat) :
    s'.vm.physAddr s'.vm.kernPgdir (s.base + BitVec.ofNat 32 i) =
      some (pa + BitVec.ofNat 32 i).toNat := by
  have hnext := h.base
  have hbelow := h.ready.below
  have hge := mmioLength_ge pa size
  have hpage : pgoff pa = 0 := by
    rcases h.page with hzero | hpage
    · rw [hzero] at hi
      exact absurd hi (Nat.not_lt_zero i)
    · exact hpage
  obtain ⟨d, pages, l, -, hmap⟩ := h.layout
  rw [pgoff_eq] at hpage
  rw [region_translated hmap hready.aligned hready.above (by omega) (by omega), pgnum_eq,
    BitVec.toNat_add, BitVec.toNat_ofNat, page_add hpage]

/-- What lies outside the pages of a call is found where it was. -/
theorem MmioStep.unchanged (h : MmioStep s pa size s') {va : U32}
    (hlow : mmiobase.toNat ≤ va.toNat) (hva : va.toNat < s.base.toNat) (hready : s.Ready) :
    s'.vm.physAddr s'.vm.kernPgdir va = s.vm.physAddr s.vm.kernPgdir va := by
  have hbase := mmiobase_toNat
  have haligned := hready.aligned
  obtain ⟨d, pages, l, ⟨free, hspace, -⟩, free', hspace', -⟩ := h.layout
  obtain ⟨-, -, huvpt, -, -⟩ := pdx_windows
  have hnum := pdx_ptx va
  have hptx := ptx_lt va
  rw [hspace.kernPgdir, hspace'.kernPgdir]
  refine hspace.physAddr_congr hspace' (by rw [huvpt]; omega) ?_
  unfold Layout.region
  rw [if_neg (by omega)]

/-- Every address of the ranges that were returned lies before the cursor. -/
theorem MmioRun.ready (h : MmioRun s₀ before s) (h₀ : s₀.Ready) :
    s.Ready ∧ ∀ old, old ∈ before → ∀ j, j < old.size.toNat →
      mmiobase.toNat ≤ old.ret.toNat + j ∧ old.ret.toNat + j < s.base.toNat := by
  induction h with
  | start => exact ⟨h₀, fun old hold => absurd hold (List.not_mem_nil)⟩
  | @call before s s' pa size ret _ hfits hrun ih =>
      obtain ⟨hready, hbefore⟩ := ih
      rcases hready.call hfits with ⟨t, hstop⟩ | ⟨s'', hret, hstep⟩
      · rw [hrun] at hstop
        cases hstop
      · obtain ⟨rfl, rfl⟩ := Outcome.ret.inj (hrun.symm.trans hret)
        have habove := hready.above
        have hnext := hstep.base
        have hge := mmioLength_ge pa size
        refine ⟨hstep.ready, fun old hold j hj => ?_⟩
        rcases List.mem_cons.mp hold with rfl | hold
        · simp only at hj ⊢
          omega
        · have := hbefore old hold j hj
          omega

/-- In every run of calls that fit, each call panics or maps its device memory at a
new range of the MMIO region. -/
theorem mmio_map_region_runs (h₀ : s₀.Ready) (hrun : MmioRun s₀ before s)
    (hfits : s.Fits pa size) :
    (∃ t, (mmioMapRegion pa size).run s = .stop t) ∨
      ∃ ret s', (mmioMapRegion pa size).run s = .ret ret s' ∧
        MmioMapped before s ⟨pa, size, ret⟩ s' := by
  obtain ⟨hready, hbefore⟩ := hrun.ready h₀
  rcases hready.call hfits with hstop | ⟨s', hret, hstep⟩
  · exact Or.inl hstop
  · have hlim := mmiolim_toNat
    have habove := hready.above
    have hnext := hstep.base
    have hbelow := hstep.ready.below
    have hge := mmioLength_ge pa size
    refine Or.inr ⟨s.base, s', hret, ⟨fun i hi => ?_, fun old hold i j _ hj => ?_,
      fun i hi => hstep.translated hready hi, fun old hold j hj => ?_⟩⟩
    · simp only at hi ⊢
      omega
    · have := hbefore old hold j hj
      simp only
      omega
    · obtain ⟨hlow, hhigh⟩ := hbefore old hold j hj
      have hsum : (old.ret + BitVec.ofNat 32 j).toNat = old.ret.toNat + j := by
        rw [BitVec.toNat_add, BitVec.toNat_ofNat]
        omega
      exact hstep.unchanged (by rw [hsum]; exact hlow) (by rw [hsum]; exact hhigh) hready

theorem Mapping.weaken {m : PhysMem} (h : Mapping ok d pages l m) :
    Mapping False d pages l m := by
  obtain ⟨free, hspace, -⟩ := h
  exact ⟨free, hspace, False.elim⟩

/-- The cursor at the start of the region, and what `mem_init` leaves. -/
theorem MemInit.ready {b : BootInfo} {t : BootState} (h : MemInit b t) :
    (MmioState.mk t.vm mmiobase).Ready where
  mapping := ⟨_, _, _, h.kernLayout.2.weaken⟩
  aligned := mmiobase_aligned
  above := Nat.le_refl _
  below := mmiobase_lt

end Regions

/-- The registers of the local APIC. -/
theorem mmio_map_region_lapic : ∃ s₀ : MmioState, s₀.Ready ∧ s₀.base = mmiobase ∧
    ((∃ t, (mmioMapRegion 0xFEE00000#32 4096#32).run s₀ = .stop t) ∨
      ∃ ret s', (mmioMapRegion 0xFEE00000#32 4096#32).run s₀ = .ret ret s' ∧
        MmioMapped [] s₀ ⟨0xFEE00000#32, 4096#32, ret⟩ s') := by
  obtain ⟨t, ht⟩ := memInit_completes smallBoot_enough
  have hroom : mmiobase.toNat + mmioLength 0xFEE00000#32 4096#32 < mmiolim.toNat := by decide
  refine ⟨⟨t.vm, mmiobase⟩, ht.ready, rfl, mmio_map_region_runs ht.ready .start ?_⟩
  exact Or.inr (Or.inr ⟨by decide, hroom⟩)

/-- Registers inside a page are not found at the address that is returned. -/
theorem mmio_map_region_inside : ∃ s₀ s' : MmioState, s₀.Ready ∧ s₀.base = mmiobase ∧
    (mmioMapRegion 0xFEBC0010#32 16#32).run s₀ = .ret mmiobase s' ∧
    ¬ MmioMapped [] s₀ ⟨0xFEBC0010#32, 16#32, mmiobase⟩ s' := by
  obtain ⟨t, ht⟩ := memInit_completes smallBoot_enough
  have hroom : mmiobase.toNat + mmioLength 0xFEBC0010#32 16#32 < mmiolim.toNat := by decide
  have hwp := mmioMapRegion_wp (s := ⟨t.vm, mmiobase⟩) ht.kernLayout.2 mmiobase_aligned
    (Nat.le_refl _) hroom
  have hreturns : Returns (mmioMapRegion 0xFEBC0010#32 16#32) _ ⟨t.vm, mmiobase⟩ :=
    wp_mono hwp (fun _ _ hh => hh) (fun _ hh => hh) (fun _ hh => hh smallBoot_enough)
  obtain ⟨ret, s', hrun, rfl, -, hmap⟩ := returns_iff.mp hreturns
  refine ⟨_, s', ht.ready, rfl, hrun, fun hmapped => ?_⟩
  have hwrong := region_translated hmap mmiobase_aligned (Nat.le_refl _) hroom
    (i := 0) (by decide)
  have hright := hmapped.translated 0 (by decide)
  rw [hwrong] at hright
  exact absurd (Option.some.inj hright) (by decide)

end Jos

import Jos.BootMemory
import Jos.Invariant
import Mathlib.Order.Interval.Finset.Nat

/-!
# The kernel's half of the address space

Second half of `mem_init`: the page tables of `kern_pgdir`, which come off the
free list, and what their words are.  A `Layout` says what is mapped above
`UTOP`; `boot_map_region` changes it at a range of pages (`Layout.region`), and
`Mapping` is the invariant that relates it to memory.
-/

namespace Jos

open Programs LinkedList

/-- The words of the page tables of a directory, by directory and table
index. -/
abbrev Layout := Nat → Nat → U32

/-- One entry is set. -/
def Layout.set (l : Layout) (i j : Nat) (w : U32) : Layout := fun i' j' =>
  if i' = i ∧ j' = j then w else l i' j'

/-- `n` pages from page number `v` on are mapped to the pages from `q` on. -/
def Layout.region (l : Layout) (v n q : Nat) (perm : U32) : Layout := fun i j =>
  if v ≤ i * 1024 + j ∧ i * 1024 + j < v + n then
    page2pa (q + (i * 1024 + j - v)) ||| pteP ||| perm
  else l i j

/-- Directory `d` has its page tables among `pages`, and `free` are those that
are left. -/
structure KernSpace (d : Nat) (pages : Nat → Prop) (l : Layout) (free : List Nat)
    (m : PhysMem) : Prop where
  kernPgdir : m.kernPgdir = d
  chain : Chain (fun p => (m.pages p).ppLink) m.pageFreeList free
  unreferenced : ∀ p, p ∈ free → (m.pages p).ppRef = 0#16
  old : ∀ p, p ∈ free → pages p
  lt : ∀ p, pages p → p < m.npages
  npages_le : m.npages ≤ 2 ^ 20
  dir : ¬ pages d
  table : ∀ i t, i ≠ pdx uvpt → tableOf m.mem d i = some t →
    userPdes ≤ i ∧ pages t ∧ t ∉ free
  inj : ∀ i j t, i ≠ pdx uvpt → j ≠ pdx uvpt → tableOf m.mem d i = some t →
    tableOf m.mem d j = some t → i = j
  words : ∀ i t j, i ≠ pdx uvpt → tableOf m.mem d i = some t → j < nptentries →
    m.mem t j = l i j
  mapped : ∀ i j, i ≠ pdx uvpt → j < nptentries → l i j ≠ 0#32 →
    tableOf m.mem d i ≠ none
  user : ∀ i t, i ≠ pdx uvpt → tableOf m.mem d i = some t →
    HasFlag (m.mem d i) pteU
  self : m.mem d (pdx uvpt) = page2pa d ||| pteU ||| pteP

/-- The number of directory slots above `UTOP` without a page table. -/
def absentTables (mem : Mem) (d : Nat) : Nat :=
  ((Finset.Ico userPdes npdentries).filter (fun i => tableOf mem d i = none)).card

/-- `KernSpace`, and there are enough pages for the tables to come and three
more. -/
def Mapping (ok : Prop) (d : Nat) (pages : Nat → Prop) (l : Layout)
    (m : PhysMem) : Prop :=
  ∃ free, KernSpace d pages l free m ∧
    (ok → absentTables m.mem d + 3 ≤ free.length)

section Mapping

variable {ok : Prop} {d t : Nat} {pages : Nat → Prop} {l l' : Layout}
  {free : List Nat} {m m' : PhysMem} {va pa perm : U32}

theorem KernSpace.congr_layout (h : KernSpace d pages l free m)
    (hl : ∀ i j, j < nptentries → l' i j = l i j) :
    KernSpace d pages l' free m :=
  { h with
    words := fun i t j hi ht hj => (h.words i t j hi ht hj).trans (hl i j hj).symm
    mapped := fun i j hi hj hne => h.mapped i j hi hj (hl i j hj ▸ hne) }

theorem Mapping.congr_layout (h : Mapping ok d pages l m)
    (hl : ∀ i j, j < nptentries → l' i j = l i j) : Mapping ok d pages l' m := by
  obtain ⟨free, hspace, hroom⟩ := h
  exact ⟨free, hspace.congr_layout hl, hroom⟩

/-! ## One page -/

/-- A word of a page table of `d` is set. -/
theorem KernSpace.setWord (h : KernSpace d pages l free m)
    (hi : pdx va ≠ pdx uvpt) (ht : tableOf m.mem d (pdx va) = some t) (w : U32) :
    KernSpace d pages (l.set (pdx va) (ptx va) w) free (m.setWord t (ptx va) w) := by
  have hpages := (h.table _ t hi ht).2.1
  have htd : d ≠ t := fun hh => h.dir (hh ▸ hpages)
  have hdir : (m.setWord t (ptx va) w).mem d = m.mem d := by
    simp [PhysMem.setWord, PhysMem.setPage, htd]
  have htable : ∀ i, tableOf (m.setWord t (ptx va) w).mem d i =
      tableOf m.mem d i := fun i => by
    rw [tableOf, tableOf, hdir]
  refine ⟨h.kernPgdir, h.chain, h.unreferenced, h.old, h.lt, h.npages_le, h.dir,
    ?_, ?_, ?_, ?_, ?_, (congrFun hdir _).trans h.self⟩
  · intro i t' hi' ht'
    rw [htable] at ht'
    exact h.table i t' hi' ht'
  · intro i j t' hi' hj' ht₁ ht₂
    rw [htable] at ht₁ ht₂
    exact h.inj i j t' hi' hj' ht₁ ht₂
  · intro i t' j hi' ht' hj
    rw [htable] at ht'
    unfold Layout.set
    by_cases htt : t' = t
    · subst htt
      obtain rfl := h.inj i (pdx va) t' hi' hi ht' ht
      by_cases hjj : j = ptx va
      · subst hjj
        simp [PhysMem.setWord, PhysMem.setPage]
      · rw [if_neg (fun hh => hjj hh.2), ← h.words _ t' j hi' ht' hj]
        simp [PhysMem.setWord, PhysMem.setPage, hjj]
    · have hne : i ≠ pdx va := by
        rintro rfl
        exact htt (Option.some.inj (ht'.symm.trans ht))
      rw [if_neg (fun hh => hne hh.1), ← h.words i t' j hi' ht' hj]
      simp [PhysMem.setWord, PhysMem.setPage, htt]
  · intro i j hi' hj hne
    rw [htable]
    unfold Layout.set at hne
    split at hne
    · rename_i hh
      rw [hh.1, ht]
      simp
    · exact h.mapped i j hi' hj hne
  · intro i t' hi' ht'
    rw [htable] at ht'
    rw [hdir]
    exact h.user i t' hi' ht'

/-- A page of the free list becomes an empty page table. -/
theorem KernSpace.addTable (h : KernSpace d pages l (t :: free) m)
    {i : Nat} (hi : userPdes ≤ i) (hne : i ≠ pdx uvpt)
    (hnone : tableOf m.mem d i = none) :
    KernSpace d pages l free (m.addTable d i t) ∧
      (∀ i', tableOf (m.addTable d i t).mem d i' =
        if i' = i then some t else tableOf m.mem d i') := by
  have hmem : t ∈ t :: free := List.mem_cons_self
  have hpages := h.old t hmem
  have htd : d ≠ t := fun hh => h.dir (hh ▸ hpages)
  have hlt := h.lt t hpages
  have hother : ∀ i', i' ≠ i → (m.addTable d i t).mem d i' = m.mem d i' := by
    intro i' hii
    simp [PhysMem.addTable, PhysMem.setWord, PhysMem.setPage, hii, htd,
      PhysMem.addRef, PhysMem.setRef, PhysMem.popFree, PhysMem.setLink,
      PhysMem.setFreeList]
  have hnum : pgnum (page2pa t ||| pteP ||| pteU ||| pteW) = t := by
    rw [BitVec.or_assoc, BitVec.or_assoc]
    exact pgnum_page2pa_or (by have := h.npages_le; omega) (by decide)
  have hpres : HasFlag (page2pa t ||| pteP ||| pteU ||| pteW) pteP := by
    rw [hasFlag_or, hasFlag_or]
    exact Or.inl (Or.inl (hasFlag_or_pteP _))
  have htable : ∀ i', tableOf (m.addTable d i t).mem d i' =
      if i' = i then some t else tableOf m.mem d i' := fun i' => by
    by_cases hii : i' = i
    · subst hii
      rw [if_pos rfl, tableOf_eq_some]
      simp only [PhysMem.addTable, PhysMem.setWord, PhysMem.setPage,
        Function.update_self]
      exact ⟨hpres, hnum⟩
    · rw [if_neg hii, tableOf, tableOf, hother i' hii]
  have hwords : ∀ t', t' ≠ t → t' ≠ d → (m.addTable d i t).mem t' = m.mem t' := by
    intro t' ht' hd'
    simp [PhysMem.addTable, PhysMem.setWord, PhysMem.setPage, ht', hd',
      PhysMem.addRef, PhysMem.setRef, PhysMem.popFree, PhysMem.setLink,
      PhysMem.setFreeList]
  have hzero : ∀ j, (m.addTable d i t).mem t j = 0#32 := by
    intro j
    simp [PhysMem.addTable, PhysMem.setWord, PhysMem.setPage, htd.symm,
      PhysMem.addRef, PhysMem.setRef]
  have hnodup := List.nodup_cons.mp h.chain.nodup
  have hlink : ∀ p, p ≠ t → (m.addTable d i t).pages p = m.pages p := by
    intro p hp
    simp [PhysMem.addTable, PhysMem.setWord, PhysMem.setPage, PhysMem.addRef,
      PhysMem.setRef, PhysMem.popFree, PhysMem.setLink, PhysMem.setFreeList, hp]
  have hfree : ∀ p, p ∈ free → p ≠ t := fun p hp hpt => hnodup.1 (hpt ▸ hp)
  have hnew : ∀ i', i' ≠ pdx uvpt → tableOf m.mem d i' ≠ some t := fun i' hi' hh =>
    (h.table i' t hi' hh).2.2 hmem
  refine ⟨⟨h.kernPgdir, ?_, ?_, ?_, h.lt, h.npages_le, h.dir, ?_, ?_, ?_, ?_, ?_,
    (hother _ (Ne.symm hne)).trans h.self⟩, htable⟩
  · have hlist : (m.addTable d i t).pageFreeList = (m.pages t).ppLink := rfl
    rw [hlist]
    refine h.chain.2.congr (fun p hp => ?_)
    rw [hlink p (hfree p hp)]
  · intro p hp
    rw [hlink p (hfree p hp)]
    exact h.unreferenced p (List.mem_cons_of_mem t hp)
  · exact fun p hp => h.old p (List.mem_cons_of_mem t hp)
  · intro i' t' hi' ht'
    rw [htable] at ht'
    split at ht'
    · rename_i hii
      obtain rfl := Option.some.inj ht'
      exact ⟨hii ▸ hi, hpages, hnodup.1⟩
    · obtain ⟨hu, hp, hn⟩ := h.table i' t' hi' ht'
      exact ⟨hu, hp, fun hh => hn (List.mem_cons_of_mem t hh)⟩
  · intro i₁ i₂ t' h₁ h₂ ht₁ ht₂
    rw [htable] at ht₁ ht₂
    split at ht₁
    · rename_i hi₁
      obtain rfl := Option.some.inj ht₁
      split at ht₂
      · rename_i hi₂
        exact hi₁.trans hi₂.symm
      · exact absurd ht₂ (hnew i₂ h₂)
    · split at ht₂
      · obtain rfl := Option.some.inj ht₂
        exact absurd ht₁ (hnew i₁ h₁)
      · exact h.inj i₁ i₂ t' h₁ h₂ ht₁ ht₂
  · intro i' t' j hi' ht' hj
    rw [htable] at ht'
    split at ht'
    · rename_i hii
      obtain rfl := Option.some.inj ht'
      subst hii
      rw [hzero]
      by_contra hw
      exact h.mapped i' j hi' hj (Ne.symm hw) hnone
    · have ht't : t' ≠ t := fun hh => hnew i' hi' (hh ▸ ht')
      have ht'd : t' ≠ d := fun hh => h.dir (hh ▸ (h.table i' t' hi' ht').2.1)
      rw [hwords t' ht't ht'd]
      exact h.words i' t' j hi' ht' hj
  · intro i' j hi' hj hw
    rw [htable]
    split
    · simp
    · exact h.mapped i' j hi' hj hw
  · intro i' t' hi' ht'
    rw [htable] at ht'
    by_cases hii : i' = i
    · subst hii
      simp only [PhysMem.addTable, PhysMem.setWord, PhysMem.setPage,
        Function.update_self]
      rw [hasFlag_or, hasFlag_or]
      exact Or.inl (Or.inr (by decide))
    · rw [if_neg hii] at ht'
      rw [hother i' hii]
      exact h.user i' t' hi' ht'

/-- One slot less is without a table. -/
theorem absentTables_add {mem mem' : Mem} {i : Nat} (hi : userPdes ≤ i)
    (hlt : i < npdentries) (hnone : tableOf mem d i = none)
    (htable : ∀ i', tableOf mem' d i' = if i' = i then some t else tableOf mem d i') :
    absentTables mem' d + 1 = absentTables mem d := by
  have hmem : i ∈ (Finset.Ico userPdes npdentries).filter
      (fun i => tableOf mem d i = none) :=
    Finset.mem_filter.mpr ⟨Finset.mem_Ico.mpr ⟨hi, hlt⟩, hnone⟩
  have herase : (Finset.Ico userPdes npdentries).filter
      (fun i => tableOf mem' d i = none) =
      ((Finset.Ico userPdes npdentries).filter
        (fun i => tableOf mem d i = none)).erase i := by
    ext i'
    rw [Finset.mem_erase, Finset.mem_filter, Finset.mem_filter, htable]
    by_cases hii : i' = i
    · simp [hii]
    · simp [hii]
  unfold absentTables
  rw [herase, Finset.card_erase_of_mem hmem]
  have hpos := Finset.card_pos.mpr ⟨i, hmem⟩
  omega

/-- `pgdir_walk` finds a page table or makes one. -/
theorem Mapping.walk (h : Mapping ok d pages l m) (hva : utop ≤ va)
    (hne : pdx va ≠ pdx uvpt) :
    Returns (pgdirWalk d va true) (fun r m' =>
      (r = none ∧ ¬ ok) ∨ ∃ t, r = some ⟨t, ptx va⟩ ∧
        tableOf m'.mem d (pdx va) = some t ∧ m'.npages = m.npages ∧
        Mapping ok d pages l m') m := by
  obtain ⟨free, hspace, hroom⟩ := h
  have hi : userPdes ≤ pdx va := by
    by_contra hlt
    exact absurd hva (BitVec.not_le.mpr ((pdx_lt_userPdes va).mp (not_le.mp hlt)))
  rw [returns_iff]
  cases ht : tableOf m.mem d (pdx va) with
  | some t =>
      have htlt := hspace.lt t (hspace.table _ t hne ht).2.1
      exact ⟨_, m, pgdirWalk_present ht htlt,
        Or.inr ⟨t, rfl, ht, rfl, free, hspace, hroom⟩⟩
  | none =>
      have hhead := hspace.chain
      cases free with
      | nil =>
          refine ⟨none, m, pgdirWalk_noMem ht hhead, Or.inl ⟨rfl, fun hok => ?_⟩⟩
          have hle := hroom hok
          rw [List.length_nil] at hle
          omega
      | cons t free' =>
          obtain ⟨hspace', htable⟩ := hspace.addTable hi hne ht
          have hlt := hspace.lt t (hspace.old t List.mem_cons_self)
          refine ⟨_, _, pgdirWalk_create ht hhead.1 hlt hspace.npages_le,
            Or.inr ⟨t, rfl, ?_, rfl, free', hspace', fun hok => ?_⟩⟩
          · rw [htable, if_pos rfl]
          · have habsent := absentTables_add hi (pdx_lt va) ht htable
            have hle := hroom hok
            rw [List.length_cons] at hle
            omega

/-- One turn of the loop of `boot_map_region`. -/
theorem bootMapPage_wp (h : Mapping ok d pages l m) (hva : utop ≤ va)
    (hne : pdx va ≠ pdx uvpt) :
    wp (bootMapPage d va pa perm)
      (Unless ok (fun _ m' => m'.npages = m.npages ∧
        Mapping ok d pages (l.set (pdx va) (ptx va) (pa ||| pteP ||| perm)) m')) m := by
  unfold bootMapPage
  rw [wp_bind]
  refine wp_of_returns (h.walk hva hne) ?_
  rintro r m' (⟨rfl, hno⟩ | ⟨t, rfl, ht, hn, free, hspace, hroom⟩)
  · exact hno
  · refine ⟨hn, free, hspace.setWord hne ht _, fun hok => ?_⟩
    have hle := hroom hok
    have htd : d ≠ t := fun hh =>
      hspace.dir (hh ▸ (hspace.table _ t hne ht).2.1)
    have habsent : absentTables
        (m'.setWord t (ptx va) (pa ||| pteP ||| perm)).mem d =
        absentTables m'.mem d := by
      unfold absentTables tableOf
      simp [PhysMem.setWord, PhysMem.setPage, htd]
    rw [habsent]
    exact hle

/-! ## Ranges of pages -/

/-- `n` pages from page number `v` on lie above `UTOP` and not in the window
through which a directory sees itself. -/
structure KernRange (v n : Nat) : Prop where
  above : userPdes * 1024 ≤ v
  below : v + n ≤ 2 ^ 20
  window : v + n ≤ pdx uvpt * 1024 ∨ (pdx uvpt + 1) * 1024 ≤ v

/-- The address of a page of a range. -/
theorem KernRange.address {v n k : Nat} (h : KernRange v n)
    (hva : va.toNat = v * 4096) (hk : k < n) :
    utop ≤ va + BitVec.ofNat 32 k * pgsize ∧
      pdx (va + BitVec.ofNat 32 k * pgsize) ≠ pdx uvpt ∧
      pdx (va + BitVec.ofNat 32 k * pgsize) * 1024 +
        ptx (va + BitVec.ofNat 32 k * pgsize) = v + k := by
  obtain ⟨habove, hbelow, hwindow⟩ := h
  have hpg : pgsize.toNat = 4096 := by decide
  have huvpt : pdx uvpt = 957 := by decide
  have hsum : (va + BitVec.ofNat 32 k * pgsize).toNat = (v + k) * 4096 := by
    rw [BitVec.toNat_add, BitVec.toNat_mul, BitVec.toNat_ofNat, hva, hpg]
    omega
  rw [userPdes_eq] at habove
  rw [huvpt] at hwindow ⊢
  rw [BitVec.le_def, utop_toNat, pdx_eq, ptx_eq, hsum]
  omega

/-- One more page of a range. -/
theorem Layout.region_succ {v k q i₀ j₀ : Nat} (hj₀ : j₀ < 1024)
    (hpage : i₀ * 1024 + j₀ = v + k) {i j : Nat} (hj : j < nptentries) :
    l.region v (k + 1) q perm i j =
      (l.region v k q perm).set i₀ j₀ (page2pa (q + k) ||| pteP ||| perm) i j := by
  have hj : j < 1024 := hj
  unfold Layout.region Layout.set
  dsimp only
  by_cases hhere : i = i₀ ∧ j = j₀
  · obtain ⟨rfl, rfl⟩ := hhere
    rw [if_pos ⟨by omega, by omega⟩, if_pos ⟨rfl, rfl⟩, hpage,
      Nat.add_sub_cancel_left]
  · rw [if_neg hhere]
    have hne : i * 1024 + j ≠ v + k := fun hh => hhere (by omega)
    by_cases hin : v ≤ i * 1024 + j ∧ i * 1024 + j < v + k
    · rw [if_pos hin, if_pos ⟨hin.1, by omega⟩]
    · rw [if_neg hin, if_neg (fun hh => hin ⟨hh.1, by omega⟩)]

theorem page2pa_add (q k : Nat) :
    page2pa q + BitVec.ofNat 32 k * pgsize = page2pa (q + k) := by
  apply BitVec.eq_of_toNat_eq
  have hpg : pgsize.toNat = 4096 := by decide
  unfold page2pa
  rw [BitVec.toNat_add, BitVec.toNat_mul, BitVec.toNat_shiftLeft,
    BitVec.toNat_shiftLeft, BitVec.toNat_ofNat, BitVec.toNat_ofNat,
    BitVec.toNat_ofNat, hpg, Nat.shiftLeft_eq, Nat.shiftLeft_eq]
  omega

/-- `boot_map_region`. -/
theorem bootMapRegion_wp {v n q : Nat} {size : U32} (h : Mapping ok d pages l m)
    (hrange : KernRange v n) (hva : va.toNat = v * 4096)
    (hsize : size.toNat = n * 4096) :
    wp (bootMapRegion d va size (page2pa q) perm)
      (Unless ok (fun _ m' => m'.npages = m.npages ∧
        Mapping ok d pages (l.region v n q perm) m')) m := by
  have hpg : pgsize.toNat = 4096 := by decide
  have hdiv : (size / pgsize).toNat = n := by
    rw [BitVec.toNat_udiv, hsize, hpg]
    omega
  have hmod : size % pgsize = 0#32 := by
    apply BitVec.eq_of_toNat_eq
    rw [BitVec.toNat_umod, hsize, hpg, BitVec.toNat_ofNat]
    omega
  have hpgs : (size / pgsize).toNat + (if size % pgsize ≠ 0#32 then 1 else 0) = n := by
    rw [hdiv, if_neg (fun hne => hne hmod)]
    rfl
  unfold bootMapRegion
  rw [hpgs]
  refine wp_forRange (fun k m' => m'.npages = m.npages ∧
    Mapping ok d pages (l.region v k q perm) m') 0 n ?_ (fun m' hm' => ?_) ?_
  · intro k m₁ _ hk ⟨hn, h₁⟩
    rw [Nat.zero_add] at hk
    obtain ⟨habove, hne, hpage⟩ := hrange.address hva hk
    refine wp_mono (bootMapPage_wp h₁ habove hne) ?_ (fun _ hh => hh)
      (fun _ hh => hh)
    rintro _ m₂ ⟨hn₂, h₂⟩
    rw [page2pa_add] at h₂
    exact ⟨hn₂.trans hn, h₂.congr_layout (fun i j hj =>
      Layout.region_succ (ptx_lt _) hpage hj)⟩
  · rwa [Nat.zero_add] at hm'
  · refine ⟨rfl, h.congr_layout (fun i j _ => ?_)⟩
    unfold Layout.region
    rw [if_neg (by omega)]

/-! ## What is mapped -/

/-- `pages` and `envs` at their windows, and nothing else above `UTOP`, are for
user code to see. -/
structure Windows (b : BootInfo) (l : Layout) : Prop where
  pagesWindow : ∀ j, j < nptentries → l (pdx upages) j =
    page2pa (b.pagesPage + j) ||| pteP ||| pteU
  envsWindow : ∀ j, j < nptentries → l (pdx uenvs) j =
    page2pa (b.envsPage + j) ||| pteP ||| pteU
  others : ∀ i j, j < nptentries → i ≠ pdx upages → i ≠ pdx uenvs →
    ¬ HasFlag (l i j) pteU

/-- Where the window at `KERNBASE` leads. -/
def KernbaseMapped (l : Layout) : Prop :=
  ∀ i j, pdx kernbase ≤ i → i < npdentries → j < nptentries →
    l i j = page2pa ((i - pdx kernbase) * 1024 + j) ||| pteP ||| pteW

/-- Nothing is mapped. -/
def Layout.none : Layout := fun _ _ => 0#32

theorem pdx_windows : pdx uenvs = 955 ∧ pdx upages = 956 ∧ pdx uvpt = 957 ∧
    pdx mmiobase = 958 ∧ pdx kernbase = 960 := by decide

theorem windows_first {b : BootInfo} :
    Windows b ((Layout.none.region (956 * 1024) 1024 b.pagesPage pteU).region
      (955 * 1024) 1024 b.envsPage pteU) := by
  obtain ⟨henvs, hpages, -, -, -⟩ := pdx_windows
  refine ⟨fun j hj => ?_, fun j hj => ?_, fun i j hj hi hi' => ?_⟩
  · have hj : j < 1024 := hj
    rw [hpages]
    unfold Layout.region
    rw [if_neg (by omega), if_pos ⟨by omega, by omega⟩, Nat.add_sub_cancel_left]
  · have hj : j < 1024 := hj
    rw [henvs]
    unfold Layout.region
    rw [if_pos ⟨by omega, by omega⟩, Nat.add_sub_cancel_left]
  · have hj : j < 1024 := hj
    rw [hpages] at hi
    rw [henvs] at hi'
    unfold Layout.region
    rw [if_neg (by omega), if_neg (by omega)]
    exact not_hasFlag_zero pteU

/-- What is mapped above the windows is for the kernel alone. -/
theorem Windows.region {b : BootInfo} {v n : Nat} (h : Windows b l)
    (hv : 957 * 1024 ≤ v) (q : Nat) : Windows b (l.region v n q pteW) := by
  obtain ⟨henvs, hpages, -, -, -⟩ := pdx_windows
  refine ⟨fun j hj => ?_, fun j hj => ?_, fun i j hj hi hi' => ?_⟩
  · rw [← h.pagesWindow j hj, hpages]
    have hj : j < 1024 := hj
    unfold Layout.region
    rw [if_neg (by omega)]
  · rw [← h.envsWindow j hj, henvs]
    have hj : j < 1024 := hj
    unfold Layout.region
    rw [if_neg (by omega)]
  · unfold Layout.region
    split
    · rw [hasFlag_or, hasFlag_or]
      rintro ((hh | hh) | hh)
      · exact not_hasFlag_page2pa (by decide) hh
      · exact absurd hh (by decide)
      · exact absurd hh (by decide)
    · exact h.others i j hj hi hi'

theorem kernbaseMapped_region :
    KernbaseMapped (l.region (960 * 1024) (64 * 1024) 0 pteW) := by
  obtain ⟨-, -, -, -, hbase⟩ := pdx_windows
  intro i j hi hi' hj
  have hi' : i < 1024 := hi'
  have hj : j < 1024 := hj
  rw [hbase] at hi ⊢
  unfold Layout.region
  rw [if_pos ⟨by omega, by omega⟩,
    show 0 + (i * 1024 + j - 960 * 1024) = (i - 960) * 1024 + j by omega]

theorem KernbaseMapped.region {v n : Nat} (h : KernbaseMapped l)
    (hv : v + n ≤ 960 * 1024) (q : Nat) :
    KernbaseMapped (l.region v n q perm) := by
  obtain ⟨-, -, -, -, hbase⟩ := pdx_windows
  intro i j hi hi' hj
  rw [← h i j hi hi' hj]
  rw [hbase] at hi
  unfold Layout.region
  rw [if_neg (by omega)]

/-- The physical address of a kernel stack is that of a page. -/
theorem stack_page {a : U32} (hle : kernbase ≤ a) (ha : a.toNat % 4096 = 0) :
    a - kernbase = page2pa (pgnum (a - kernbase)) := by
  have hbase : kernbase.toNat = 0xF0000000 := by decide
  have hlt := a.isLt
  apply BitVec.eq_of_toNat_eq
  have hsub : (a - kernbase).toNat = a.toNat - kernbase.toNat :=
    BitVec.toNat_sub_of_le hle
  have hnum : pgnum (a - kernbase) = (a.toNat - kernbase.toNat) / 4096 := by
    rw [pgnum_eq, hsub]
  rw [hnum, page2pa_toNat (by omega), hsub]
  omega

/-- The stacks of the first `k` processors are mapped. -/
def Layout.cpuStacks (l : Layout) (b : BootInfo) : Nat → Layout
  | 0 => l
  | k + 1 => (l.cpuStacks b k).region (983040 - 8 - 16 * k) 8
      (pgnum (b.percpuKstacks k - kernbase)) pteW

theorem Windows.cpuStacks {b : BootInfo} (h : Windows b l) {k : Nat} (hk : k ≤ 8) :
    Windows b (l.cpuStacks b k) := by
  induction k with
  | zero => exact h
  | succ k ih => exact (ih (by omega)).region (by omega) _

theorem KernbaseMapped.cpuStacks {b : BootInfo} (h : KernbaseMapped l) {k : Nat} :
    KernbaseMapped (l.cpuStacks b k) := by
  induction k with
  | zero => exact h
  | succ k ih => exact ih.region (by omega) _

/-- The stack regions of the processors. -/
theorem memInitMp_wp {b : BootInfo} (h : Mapping ok d pages l m) :
    wp (memInitMp b d) (Unless ok (fun _ m' => m'.npages = m.npages ∧
      Mapping ok d pages (l.cpuStacks b ncpuMax) m')) m := by
  have hsize : kstksize.toNat = 8 * 4096 := by decide
  unfold memInitMp
  refine wp_forRange (fun i m' => m'.npages = m.npages ∧
    Mapping ok d pages (l.cpuStacks b i) m') 0 ncpuMax
    ?_ (fun _ hh => by rwa [Nat.zero_add] at hh) ⟨rfl, h⟩
  rintro i m₁ - hi ⟨hn, h₁⟩
  have hi : i < 8 := by rwa [Nat.zero_add] at hi
  refine paddr_bind (fun _ => ?_)
    (fun hlt => absurd (b.percpuKstacks_linked i) (BitVec.not_le.mpr hlt))
  rw [stack_page (b.percpuKstacks_linked i) (b.percpuKstacks_aligned i)]
  refine wp_mono (bootMapRegion_wp (v := 983040 - 8 - 16 * i) (n := 8) h₁
    ⟨?_, ?_, ?_⟩ ?_ hsize) ?_ (fun _ hh => hh) (fun _ hh => hh)
  · rw [userPdes_eq]
    omega
  · omega
  · obtain ⟨-, -, huvpt, -, -⟩ := pdx_windows
    rw [huvpt]
    omega
  · have hbase : (kstacktop - kstksize).toNat = (983040 - 8) * 4096 := by decide
    have hgap : (kstksize + kstkgap).toNat = 16 * 4096 := by decide
    have hoff : (BitVec.ofNat 32 i * (kstksize + kstkgap)).toNat =
        i * (16 * 4096) := by
      rw [BitVec.toNat_mul, BitVec.toNat_ofNat, hgap]
      omega
    rw [BitVec.toNat_sub_of_le (by rw [BitVec.le_def]; omega), hbase, hoff]
    omega
  · rintro _ m₂ ⟨hn₂, h₂⟩
    exact ⟨hn₂.trans hn, h₂⟩

/-- What `mem_init` maps. -/
def BootInfo.kernLayout (b : BootInfo) : Layout :=
  ((((Layout.none.region (956 * 1024) 1024 b.pagesPage pteU).region
    (955 * 1024) 1024 b.envsPage pteU).region
    (959 * 1024 + 1016) 8 (pgnum (b.bootstack - kernbase)) pteW).region
    (960 * 1024) (64 * 1024) 0 pteW).cpuStacks b ncpuMax

theorem windows_kernLayout {b : BootInfo} : Windows b b.kernLayout :=
  ((windows_first.region (by decide) _).region (by decide) 0).cpuStacks (Nat.le_refl _)

theorem kernbaseMapped_kernLayout {b : BootInfo} : KernbaseMapped b.kernLayout :=
  kernbaseMapped_region.cpuStacks

/-! ## The check of physical memory -/

/-- What `check_va2pa` finds at an address of physical memory. -/
theorem checkVa2pa_kernbase {n : Nat} (h : KernSpace d pages l free m)
    (hk : KernbaseMapped l) (hn : n < 65536) :
    (checkVa2pa d (kernbase + BitVec.ofNat 32 n * pgsize)).run m =
      .ret (BitVec.ofNat 32 n * pgsize) m := by
  have hbase : kernbase.toNat = 0xF0000000 := by decide
  have hpg : pgsize.toNat = 4096 := by decide
  obtain ⟨-, -, huvpt, -, hslot⟩ := pdx_windows
  have hi : (BitVec.ofNat 32 n * pgsize).toNat = n * 4096 := by
    rw [BitVec.toNat_mul, BitVec.toNat_ofNat, hpg]
    omega
  have hsum : (kernbase + BitVec.ofNat 32 n * pgsize).toNat =
      0xF0000000 + n * 4096 := by
    rw [BitVec.toNat_add, hi, hbase]
    omega
  have hpdx : pdx (kernbase + BitVec.ofNat 32 n * pgsize) = 960 + n / 1024 := by
    rw [pdx_eq, hsum]
    omega
  have hptx : ptx (kernbase + BitVec.ofNat 32 n * pgsize) = n % 1024 := by
    rw [ptx_eq, hsum]
    omega
  generalize kernbase + BitVec.ofNat 32 n * pgsize = va at hpdx hptx
  have hne : pdx va ≠ pdx uvpt := by
    rw [hpdx, huvpt]
    omega
  have hword : l (pdx va) (ptx va) = page2pa n ||| (pteP ||| pteW) := by
    rw [hk _ _ (by rw [hpdx, hslot]; omega) (by rw [hpdx]; unfold npdentries; omega)
      (ptx_lt va), hpdx, hptx, hslot, BitVec.or_assoc,
      show (960 + n / 1024 - 960) * 1024 + n % 1024 = n by omega]
  have hflag : HasFlag (l (pdx va) (ptx va)) pteP := by
    rw [hword, hasFlag_or, hasFlag_or]
    exact Or.inr (Or.inl (by decide))
  have hnone : l (pdx va) (ptx va) ≠ 0#32 := by
    intro hh
    rw [hh] at hflag
    exact not_hasFlag_zero pteP hflag
  obtain ⟨t, ht⟩ := Option.ne_none_iff_exists'.mp (h.mapped _ _ hne (ptx_lt va) hnone)
  obtain ⟨hpresent, hpage⟩ := tableOf_eq_some.mp ht
  have hread : m.mem t (ptx va) = l (pdx va) (ptx va) := h.words _ _ _ hne ht (ptx_lt va)
  have haddr : pteAddr (l (pdx va) (ptx va)) = BitVec.ofNat 32 n * pgsize := by
    apply BitVec.eq_of_toNat_eq
    have hnum : pgnum (page2pa n ||| (pteP ||| pteW)) = n :=
      pgnum_page2pa_or (by omega) (by decide)
    rw [pgnum_eq] at hnum
    rw [hword, pteAddr_toNat, hi, hnum]
  have hkaddr : (kaddr (pteAddr (m.mem d (pdx va)))).run m = .ret t m := by
    rw [kaddr_eq, pgnum_pteAddr, hpage]
    rw [pgnum_pteAddr, hpage]
    exact h.lt t (h.table _ t hne ht).2.1
  unfold checkVa2pa
  rw [Prog.run_bind_ret (readPte_eq _), if_neg (not_not_intro hpresent),
    Prog.run_bind_ret hkaddr, Prog.run_bind_ret (readPte_eq _)]
  simp only [hread]
  rw [if_neg (not_not_intro hflag), haddr]
  rfl

/-- The window at `KERNBASE` has room for 65536 pages, and the page after them
is at address 0, where nothing is mapped. -/
theorem checkPhysMem_wp (h : Mapping ok d pages l m) (hk : KernbaseMapped l)
    (hn : m.npages < 2 ^ 20) :
    wp (checkPhysMem d) (Unless (m.npages ≤ 65536) (fun _ m' => m' = m ∧
      m.npages ≤ 65536)) m := by
  obtain ⟨free, hspace, -⟩ := h
  have hpg : pgsize.toNat = 4096 := by decide
  have hcount : (BitVec.ofNat 32 m.npages * pgsize / pgsize).toNat = m.npages := by
    rw [BitVec.toNat_udiv, BitVec.toNat_mul, BitVec.toNat_ofNat, hpg]
    omega
  unfold checkPhysMem
  rw [wp_get_bind, hcount]
  refine wp_forRange (fun n m' => m' = m ∧ n ≤ 65536) 0 m.npages ?_
    (fun m' hh => by rwa [Nat.zero_add] at hh) ⟨rfl, by omega⟩
  rintro n m' - hlt ⟨rfl, hle⟩
  rw [Nat.zero_add] at hlt
  rcases Nat.lt_or_ge n 65536 with hn' | hn'
  · refine wp_ret_bind (checkVa2pa_kernbase hspace hk hn') ?_
    exact wp_when (fun hh => absurd rfl hh) (fun _ => ⟨rfl, hn'⟩)
  · obtain rfl : n = 65536 := by omega
    have hva : kernbase + BitVec.ofNat 32 65536 * pgsize = 0#32 := by decide
    have hnone : tableOf m'.mem d (pdx 0#32) = none := by
      by_contra hsome
      obtain ⟨t, ht⟩ := Option.ne_none_iff_exists'.mp hsome
      exact absurd (hspace.table _ t (by decide) ht).1 (by decide)
    have hrun : (checkVa2pa d (kernbase + BitVec.ofNat 32 65536 * pgsize)).run m' =
        .ret (~~~0#32) m' := by
      rw [hva]
      unfold checkVa2pa
      rw [Prog.run_bind_ret (readPte_eq _), if_pos]
      · rfl
      · exact tableOf_eq_none.mp hnone
    refine wp_ret_bind hrun (wp_when (fun _ => ?_) (fun hh => absurd hh (by decide)))
    show ¬ m'.npages ≤ 65536
    omega

/-! ## `mem_init` -/

theorem Mapping.loadCr3 (h : Mapping ok d pages l m) (cpu pgdir : Nat) :
    Mapping ok d pages l (m.loadCr3 cpu pgdir) := by
  obtain ⟨free, hspace, hroom⟩ := h
  exact ⟨free, ⟨hspace.kernPgdir, hspace.chain, hspace.unreferenced, hspace.old,
    hspace.lt, hspace.npages_le, hspace.dir, hspace.table, hspace.inj, hspace.words,
    hspace.mapped, hspace.user, hspace.self⟩, hroom⟩

/-- The self-checks leave the tables alone. -/
theorem Mapping.selfChecked (h : Mapping ok d pages l m) (hs : SelfChecked m m') :
    Mapping ok d pages l m' := by
  obtain ⟨free, hspace, hroom⟩ := h
  obtain ⟨free', hperm, hchain, hmem⟩ := hs.freeList free hspace.chain
  have hdir : m'.mem d = m.mem d :=
    hmem d (fun hh => hspace.dir (hspace.old d hh))
  have htable : ∀ i, tableOf m'.mem d i = tableOf m.mem d i := fun i => by
    rw [tableOf, tableOf, hdir]
  refine ⟨free', ⟨hs.kernPgdir.trans hspace.kernPgdir, hchain, ?_, ?_, ?_, ?_,
    hspace.dir, ?_, ?_, ?_, ?_, ?_, (congrFun hdir _).trans hspace.self⟩,
    fun hok => ?_⟩
  · intro p hp
    rw [hs.ref]
    exact hspace.unreferenced p (hperm.mem_iff.mp hp)
  · exact fun p hp => hspace.old p (hperm.mem_iff.mp hp)
  · intro p hp
    rw [hs.npages]
    exact hspace.lt p hp
  · rw [hs.npages]
    exact hspace.npages_le
  · intro i t hi ht
    rw [htable] at ht
    obtain ⟨hu, hpg, hfree⟩ := hspace.table i t hi ht
    exact ⟨hu, hpg, fun hh => hfree (hperm.mem_iff.mp hh)⟩
  · intro i j t hi hj ht ht'
    rw [htable] at ht ht'
    exact hspace.inj i j t hi hj ht ht'
  · intro i t j hi ht hj
    rw [htable] at ht
    rw [hmem t (hspace.table i t hi ht).2.2]
    exact hspace.words i t j hi ht hj
  · intro i j hi hj hne
    rw [htable]
    exact hspace.mapped i j hi hj hne
  · intro i t hi ht
    rw [htable] at ht
    rw [hdir]
    exact hspace.user i t hi ht
  · have habsent : absentTables m'.mem d = absentTables m.mem d := by
      unfold absentTables
      simp only [htable]
    rw [habsent, hperm.length_eq]
    exact hroom hok

/-- There is memory enough to map what `mem_init` maps. -/
structure BootInfo.Enough (b : BootInfo) : Prop where
  fits : b.Fits
  least : 160 ≤ b.npages
  most : b.npages ≤ 65536

variable {b : BootInfo} {s : BootState}

/-- After `page_init`, nothing is mapped. -/
theorem Allotted.mapping (h : Allotted b s) :
    Mapping b.Enough b.dirPage b.FreePage .none s.vm := by
  obtain ⟨free, hchain, hfree, href⟩ := h.free
  have hge := b.dirPage_ge
  obtain ⟨hpagesPage, henvsPage, hused⟩ := b.pages_eq
  have hfits := b.fits_iff.mp h.fits
  have hnone : ∀ i, i ≠ pdx uvpt → tableOf s.vm.mem b.dirPage i = none := by
    intro i hi
    rw [tableOf_eq_none, h.dir i hi]
    exact not_hasFlag_zero pteP
  refine ⟨free, ⟨h.kernPgdir, hchain, href, fun p hp => (hfree p).mp hp, ?_, ?_, ?_,
    ?_, ?_, ?_, ?_, ?_, h.self⟩, fun hok => ?_⟩
  · intro p hp
    rw [h.npages]
    exact hp.1
  · rw [h.npages]
    omega
  · rintro ⟨-, -, -, hout⟩
    omega
  · intro i t hi ht
    rw [hnone i hi] at ht
    exact absurd ht (by simp)
  · intro i j t hi _ ht _
    rw [hnone i hi] at ht
    exact absurd ht (by simp)
  · intro i t j hi ht _
    rw [hnone i hi] at ht
    exact absurd ht (by simp)
  · exact fun i j _ _ hne => absurd rfl hne
  · intro i t hi ht
    rw [hnone i hi] at ht
    exact absurd ht (by simp)
  · have habsent : absentTables s.vm.mem b.dirPage ≤ 69 :=
      (Finset.card_filter_le _ _).trans (by rw [Nat.card_Ico]; decide)
    have hsub : Finset.Ico 8 160 ⊆ free.toFinset := by
      intro p hp
      rw [Finset.mem_Ico] at hp
      rw [List.mem_toFinset, hfree p]
      have hleast := hok.least
      exact ⟨by omega, by omega, by omega, by omega⟩
    have hcard := (Finset.card_le_card hsub).trans free.toFinset_card_le
    rw [Nat.card_Ico] at hcard
    omega

/-- `mem_init` has mapped what it maps. -/
structure KernMapped (b : BootInfo) (s : BootState) : Prop where
  fits : b.Fits
  npages : s.vm.npages = b.npages
  npages_le : b.npages ≤ 65536
  pagesVa : s.pagesVa.toNat = kernbase.toNat + b.pagesPage * 4096
  envsVa : s.envsVa.toNat = kernbase.toNat + b.envsPage * 4096
  mapped : ∃ l, Mapping b.Enough b.dirPage b.FreePage l s.vm ∧ Windows b l

/-- A function of `kern/pmap.c` among the rest of `mem_init`. -/
theorem onBoot_bind {α β : Type} {p : Prog PhysMem α} {f : α → Prog BootState β}
    {R : α → PhysMem → Prop} {Q : β → BootState → Prop} {ok' : Prop}
    (hp : wp p (Unless ok' R) s.vm) (hok : ok → ok')
    (hf : ∀ a (s' : BootState), s'.pagesVa = s.pagesVa → s'.envsVa = s.envsVa →
      R a s'.vm → wp (f a) (Unless ok Q) s') :
    wp (onBoot p >>= f) (Unless ok Q) s := by
  rw [wp_bind]
  exact (wp_zoom _ _ _).mpr (wp_mono hp (fun a m hm => hf a { s with vm := m } rfl rfl hm)
    (fun _ hh => hh) (fun _ hh hok' => hh (hok hok')))

theorem memInitMap_wp (hfits : b.Fits) (hn : s.vm.npages = b.npages)
    (hpagesVa : s.pagesVa.toNat = kernbase.toNat + b.pagesPage * 4096)
    (henvsVa : s.envsVa.toNat = kernbase.toNat + b.envsPage * 4096)
    (h : Mapping b.Enough b.dirPage b.FreePage .none s.vm) :
    wp (memInitMap b) (Unless b.Enough (fun _ s' => KernMapped b s' ∧
      Mapping b.Enough b.dirPage b.FreePage b.kernLayout s'.vm)) s := by
  obtain ⟨-, hsec, huvpt, hmmio, -⟩ := pdx_windows
  obtain ⟨hpagesPage, henvsPage, hused⟩ := b.pages_eq
  have hfits' := b.fits_iff.mp hfits
  have hpt : ptsize.toNat = 1024 * 4096 := by decide
  have hdir : s.vm.kernPgdir = b.dirPage := h.choose_spec.1.kernPgdir
  have hdown : ∀ {a : U32} {p : Nat}, a.toNat = kernbase.toNat + p * 4096 →
      p ≤ 1024 → kernbase ≤ a ∧ a - kernbase = page2pa p := fun {a p} ha hp => by
    obtain ⟨hle, hsub, -⟩ := paddr_page ha
    refine ⟨hle, BitVec.eq_of_toNat_eq ?_⟩
    rw [hsub, page2pa_toNat (by omega)]
  obtain ⟨hpagesLe, hpagesPa⟩ := hdown hpagesVa (by omega)
  obtain ⟨henvsLe, henvsPa⟩ := hdown henvsVa (by omega)
  unfold memInitMap
  rw [wp_get_bind]
  dsimp only
  rw [hdir]
  refine onBoot_bind (wp_of_returns (h.walk (by decide) (by decide))
    (fun _ _ hh => hh)) (id : b.Enough → b.Enough) ?_
  rintro r s₁ hpv₁ hev₁ (⟨rfl, hno⟩ | ⟨t, rfl, -, hn₁, h₁⟩)
  · exact hno
  dsimp only
  refine paddr_bind (fun _ => ?_) (fun hlt => absurd hpagesLe (BitVec.not_le.mpr hlt))
  rw [hpagesPa]
  refine onBoot_bind (bootMapRegion_wp (v := 956 * 1024) (n := 1024) h₁
    ⟨by decide, by decide, by decide⟩ (by decide) hpt) id ?_
  rintro _ s₂ hpv₂ hev₂ ⟨hn₂, h₂⟩
  refine paddr_bind (fun _ => ?_) (fun hlt => absurd henvsLe (BitVec.not_le.mpr hlt))
  rw [henvsPa]
  refine onBoot_bind (bootMapRegion_wp (v := 955 * 1024) (n := 1024) h₂
    ⟨by decide, by decide, by decide⟩ (by decide) hpt) id ?_
  rintro _ s₃ hpv₃ hev₃ ⟨hn₃, h₃⟩
  refine paddr_bind (fun _ => ?_)
    (fun hlt => absurd b.bootstack_linked (BitVec.not_le.mpr hlt))
  rw [stack_page b.bootstack_linked b.bootstack_aligned]
  refine onBoot_bind (bootMapRegion_wp (v := 959 * 1024 + 1016) (n := 8) h₃
    ⟨by decide, by decide, by decide⟩ (by decide) (by decide)) id ?_
  rintro _ s₄ hpv₄ hev₄ ⟨hn₄, h₄⟩
  refine onBoot_bind (bootMapRegion_wp (q := 0) (v := 960 * 1024) (n := 64 * 1024) h₄
    ⟨by decide, by decide, by decide⟩ (by decide) (by decide)) id ?_
  rintro _ s₅ hpv₅ hev₅ ⟨hn₅, h₅⟩
  refine onBoot_bind (memInitMp_wp (b := b) h₅) id ?_
  rintro _ s₆ hpv₆ hev₆ ⟨hn₆, h₆⟩
  have hnpages : s₆.vm.npages = b.npages := by
    rw [hn₆, hn₅, hn₄, hn₃, hn₂, hn₁, hn]
  refine onBoot_bind (checkPhysMem_wp h₆ kernbaseMapped_kernLayout
    (by rw [hnpages]; omega))
    (fun hok => by rw [hnpages]; exact hok.most) ?_
  rintro _ s₇ hpv₇ hev₇ ⟨hm, hle⟩
  rw [hnpages] at hle
  have h₇ := (hm ▸ h₆ : Mapping _ _ _ _ s₇.vm).loadCr3 0 b.dirPage
  refine ⟨⟨hfits, ?_, hle, ?_, ?_, _, h₇, windows_kernLayout⟩, h₇⟩
  · show s₇.vm.npages = b.npages
    rw [hm, hnpages]
  · show s₇.pagesVa.toNat = _
    rw [hpv₇, hpv₆, hpv₅, hpv₄, hpv₃, hpv₂, hpv₁, hpagesVa]
  · show s₇.envsVa.toNat = _
    rw [hev₇, hev₆, hev₅, hev₄, hev₃, hev₂, hev₁, henvsVa]

/-- What `mem_init` leaves. -/
theorem MemInit.kernLayout (h : MemInit b s) : KernMapped b s ∧
    Mapping b.Enough b.dirPage b.FreePage b.kernLayout s.vm := by
  obtain ⟨s₀, s₁, s₂, m₁, m, hnext, hlist, halloc, hs₁, hmap, hs₂, -, rfl⟩ := h
  have hallot : Allotted b s₁ := wp_ret (memInitAlloc_wp hnext hlist) halloc
  have h₁ := hallot.mapping.selfChecked hs₁
  obtain ⟨hmapped, hlayout⟩ :=
    wp_ret (memInitMap_wp (s := { s₁ with vm := m₁ }) hallot.fits
      (hs₁.npages.trans hallot.npages) hallot.pagesVa hallot.envsVa h₁) hmap
  have hl := hlayout.selfChecked hs₂
  exact ⟨⟨hmapped.fits, hs₂.npages.trans hmapped.npages, hmapped.npages_le,
    hmapped.pagesVa, hmapped.envsVa, _, hl, windows_kernLayout⟩, hl⟩

theorem MemInit.kernMapped (h : MemInit b s) : KernMapped b s := h.kernLayout.1

/-- `mem_init` completes where memory is enough. -/
theorem memInit_completes (h : b.Enough) : ∃ s, MemInit b s := by
  have hself : ∀ m, SelfChecked m m := fun m =>
    ⟨rfl, rfl, fun _ => rfl, fun free hc => ⟨free, .refl _, hc, fun _ _ => rfl⟩⟩
  have hends : ∀ {σ α : Type} {p : Prog σ α} {R : α → σ → Prop} {s : σ},
      wp p (Unless b.Enough R) s → ∃ a s', p.run s = .ret a s' ∧ R a s' := by
    intro σ α p R s hwp
    exact returns_iff.mp (wp_mono hwp (fun _ _ hh => hh) (fun _ hh => hh)
      (fun _ hh => hh h))
  let s₀ : BootState := ⟨{ bootMemory 0 with pageFreeList := none }, none, 0#32, 0#32⟩
  obtain ⟨⟨⟩, s₁, halloc, hallot⟩ := hends (wp_mono
    (memInitAlloc_wp (b := b) (s := s₀) rfl rfl) (fun _ _ hh => hh) (fun _ hh => hh)
    (fun _ hh hok => hh hok.fits))
  obtain ⟨⟨⟩, s₂, hmap, hmapped, -⟩ := hends (memInitMap_wp hallot.fits hallot.npages
    hallot.pagesVa hallot.envsVa hallot.mapping)
  obtain ⟨l, ⟨free, hspace, hroom⟩, -⟩ := hmapped.mapped
  have hthree : s₂.vm.ThreeFree := by
    have hlen : 3 ≤ free.length := le_trans (Nat.le_add_left 3 _) (hroom h)
    have hchain := hspace.chain
    clear hroom hspace
    match free, hlen, hchain with
    | p :: q :: r :: _, _, hchain =>
        exact ⟨p, q, r, hchain.1, hchain.2.1, hchain.2.2.1⟩
  have heta : BootState.mk s₁.vm s₁.nextfree s₁.pagesVa s₁.envsVa = s₁ := rfl
  refine ⟨s₂, s₀, s₁, s₂, s₁.vm, s₂.vm, rfl, rfl, halloc, hself _, ?_, hself _, hthree,
    rfl⟩
  rw [heta]
  exact hmap

/-- The pages that the allocator manages after `mem_init`. -/
theorem KernMapped.leaves (h : KernMapped b s) :
    ∃ managed, (∀ p, p ∈ managed → b.FreePage p) ∧ MemInitLeaves managed s.vm := by
  obtain ⟨l, ⟨free, hspace, -⟩, hw⟩ := h.mapped
  have huser : userPdes < pdx uvpt := by decide
  refine ⟨{p | p ∈ free}, hspace.old, ⟨free, hspace.chain, fun _ => Iff.rfl⟩,
    hspace.unreferenced, fun p hp => hspace.lt p (hspace.old p hp), ?_, ?_⟩
  · rw [h.npages]
    exact h.npages_le
  · rw [← hspace.kernPgdir] at hspace
    refine ⟨fun i hi => ?_, fun hh => hspace.dir (hspace.old _ hh), ?_, ?_⟩
    · rw [← tableOf_eq_none]
      by_contra hne
      obtain ⟨t, ht⟩ := Option.ne_none_iff_exists'.mp hne
      exact absurd (hspace.table i t (by omega) ht).1 (by omega)
    · exact fun i t _ _ hi ht => (hspace.table i t hi ht).2.2
    · rintro i t j - - hi ht hj ⟨huf, hwf⟩
      rw [hspace.words i t j hi ht hj] at huf hwf
      have hno : ∀ q, ¬ HasFlag (page2pa q ||| pteP ||| pteU) pteW := by
        intro q
        rw [hasFlag_or, hasFlag_or]
        rintro ((hh | hh) | hh)
        · exact not_hasFlag_page2pa (by decide) hh
        · exact absurd hh (by decide)
        · exact absurd hh (by decide)
      by_cases hpages : i = pdx upages
      · rw [hpages, hw.pagesWindow j hj] at hwf
        exact hno _ hwf
      · by_cases henvs : i = pdx uenvs
        · rw [henvs, hw.envsWindow j hj] at hwf
          exact hno _ hwf
        · exact hw.others i j hj hpages henvs huf

end Mapping

end Jos

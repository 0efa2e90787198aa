import Jos.Lib.RefPool
import Jos.Machine
import Mathlib.Data.Finset.Prod

/-!
# Address spaces read off physical memory

`tableOf` and `entryOf` read the two levels of a page directory out of
physical memory.  `refCount` counts the references to a page that `pp_ref` is
meant to count: present page-table entries and present directory entries below
`UTOP` in the directories in use, and the directories themselves.

`AddrSpaces` is the shape of a well-kept set of address spaces: directories,
page tables and mapped pages are different pages, and no page table belongs to
two directory slots.  So a write to one table is seen through one slot only.

The last part says what each elementary change of memory does to the views, to
the shape and to the count.
-/

namespace Jos

open RefPool

/-- The contents of physical memory. -/
abbrev Mem := Nat → Nat → U32

/-- Write one word of a page. -/
def Mem.set (mem : Mem) (p i : Nat) (w : U32) : Mem :=
  Function.update mem p (Function.update (mem p) i w)

@[simp] theorem Mem.set_self (mem : Mem) (p i : Nat) (w : U32) :
    mem.set p i w p i = w := by
  simp [Mem.set]

theorem Mem.set_of_ne {mem : Mem} {p i q j : Nat} {w : U32}
    (h : ¬ (q = p ∧ j = i)) :
    mem.set p i w q j = mem q j := by
  unfold Mem.set
  by_cases hq : q = p
  · subst hq
    have hj : j ≠ i := fun hj => h ⟨rfl, hj⟩
    simp [hj]
  · simp [hq]

/-! ## Views -/

/-- The page table that directory entry `i` names, if it is present. -/
def tableOf (mem : Mem) (d i : Nat) : Option Nat :=
  if HasFlag (mem d i) pteP then some (pgnum (mem d i)) else none

/-- The present page-table entry for directory index `i`, table index `j`. -/
def entryOf (mem : Mem) (d i j : Nat) : Option U32 :=
  match tableOf mem d i with
  | none => none
  | some t => if HasFlag (mem t j) pteP then some (mem t j) else none

/-- The page mapped at directory index `i`, table index `j`. -/
def mappedPage (mem : Mem) (d i j : Nat) : Option Nat :=
  (entryOf mem d i j).map pgnum

theorem tableOf_eq_some {mem : Mem} {d i t : Nat} :
    tableOf mem d i = some t ↔
      HasFlag (mem d i) pteP ∧ pgnum (mem d i) = t := by
  unfold tableOf
  split <;> simp [*]

theorem tableOf_eq_none {mem : Mem} {d i : Nat} :
    tableOf mem d i = none ↔ ¬ HasFlag (mem d i) pteP := by
  unfold tableOf
  split <;> simp [*]

theorem entryOf_of_table {mem : Mem} {d i j t : Nat}
    (h : tableOf mem d i = some t) :
    entryOf mem d i j =
      if HasFlag (mem t j) pteP then some (mem t j) else none := by
  simp [entryOf, h]

theorem entryOf_of_no_table {mem : Mem} {d i j : Nat}
    (h : tableOf mem d i = none) :
    entryOf mem d i j = none := by
  simp [entryOf, h]

/-- A present entry is a word of a page table. -/
theorem entryOf_eq_some {mem : Mem} {d i j : Nat} {w : U32} :
    entryOf mem d i j = some w ↔
      ∃ t, tableOf mem d i = some t ∧ mem t j = w ∧ HasFlag w pteP := by
  cases ht : tableOf mem d i with
  | none => simp [entryOf_of_no_table ht]
  | some t =>
      rw [entryOf_of_table ht]
      constructor
      · intro h
        split at h
        · rename_i hp
          obtain rfl := Option.some.inj h
          exact ⟨t, rfl, rfl, hp⟩
        · exact absurd h (by simp)
      · rintro ⟨t', ht', rfl, hp⟩
        obtain rfl := Option.some.inj ht'
        rw [if_pos hp]

theorem mappedPage_eq_some {mem : Mem} {d i j p : Nat} :
    mappedPage mem d i j = some p ↔
      ∃ w, entryOf mem d i j = some w ∧ pgnum w = p := by
  simp [mappedPage]

/-! ## Counting references -/

/-- The page-table slots below `UTOP` of a set of directories. -/
def pteSlots (dirs : Finset Nat) : Finset (Nat × Nat × Nat) :=
  dirs ×ˢ Finset.range userPdes ×ˢ Finset.range nptentries

/-- The directory slots below `UTOP` of a set of directories. -/
def pdeSlots (dirs : Finset Nat) : Finset (Nat × Nat) :=
  dirs ×ˢ Finset.range userPdes

/-- The number of times page `p` is mapped below `UTOP`. -/
def mapCount (mem : Mem) (dirs : Finset Nat) (p : Nat) : Nat :=
  ((pteSlots dirs).filter
    (fun r => mappedPage mem r.1 r.2.1 r.2.2 = some p)).card

/-- The references to page `p`: present page-table entries below `UTOP` that
point to it, present directory entries below `UTOP` that point to it, and one
more if it is itself a directory in use. -/
def refCount (mem : Mem) (dirs : Finset Nat) (p : Nat) : Nat :=
  mapCount mem dirs p +
  ((pdeSlots dirs).filter (fun r => tableOf mem r.1 r.2 = some p)).card +
  (if p ∈ dirs then 1 else 0)

@[simp] theorem mem_pteSlots {dirs : Finset Nat} {d i j : Nat} :
    (d, i, j) ∈ pteSlots dirs ↔ d ∈ dirs ∧ i < userPdes ∧ j < nptentries := by
  simp [pteSlots]

@[simp] theorem mem_pdeSlots {dirs : Finset Nat} {d i : Nat} :
    (d, i) ∈ pdeSlots dirs ↔ d ∈ dirs ∧ i < userPdes := by
  simp [pdeSlots]

section Counted

variable {mem : Mem} {dirs : Finset Nat} {d i j p : Nat}

theorem refCount_pos_of_dir (h : d ∈ dirs) : 0 < refCount mem dirs d := by
  simp [refCount, h]

theorem refCount_pos_of_table
    (hd : d ∈ dirs) (hi : i < userPdes) (h : tableOf mem d i = some p) :
    0 < refCount mem dirs p := by
  have : 0 < ((pdeSlots dirs).filter
      (fun r => tableOf mem r.1 r.2 = some p)).card :=
    Finset.card_pos.mpr ⟨(d, i), by simp [hd, hi, h]⟩
  unfold refCount
  omega

theorem refCount_pos_of_page
    (hd : d ∈ dirs) (hi : i < userPdes) (hj : j < nptentries)
    (h : mappedPage mem d i j = some p) :
    0 < refCount mem dirs p := by
  have : 0 < ((pteSlots dirs).filter
      (fun r => mappedPage mem r.1 r.2.1 r.2.2 = some p)).card :=
    Finset.card_pos.mpr ⟨(d, i, j), by simp [hd, hi, hj, h]⟩
  unfold refCount mapCount
  omega

/-- With no directory in use nothing is referenced. -/
@[simp] theorem refCount_empty : refCount mem ∅ p = 0 := by
  simp [refCount, mapCount, pteSlots, pdeSlots]

end Counted

/-! ## Shape -/

/-- The pages in the roles of directory, page table and mapped page are
managed pages, and the roles do not mix. -/
structure AddrSpaces (managed : Set Nat) (dirs : Finset Nat) (mem : Mem) :
    Prop where
  dir_managed : ∀ d, d ∈ dirs → d ∈ managed
  table_managed : ∀ d i t, d ∈ dirs → i < userPdes →
    tableOf mem d i = some t → t ∈ managed
  table_not_dir : ∀ d i t, d ∈ dirs → i < userPdes →
    tableOf mem d i = some t → t ∉ dirs
  table_inj : ∀ d i d' i' t, d ∈ dirs → i < userPdes → d' ∈ dirs →
    i' < userPdes → tableOf mem d i = some t → tableOf mem d' i' = some t →
    d' = d ∧ i' = i
  page_managed : ∀ d i j p, d ∈ dirs → i < userPdes → j < nptentries →
    mappedPage mem d i j = some p → p ∈ managed
  page_not_dir : ∀ d i j p, d ∈ dirs → i < userPdes → j < nptentries →
    mappedPage mem d i j = some p → p ∉ dirs
  page_not_table : ∀ d i j p d' i', d ∈ dirs → i < userPdes →
    j < nptentries → d' ∈ dirs → i' < userPdes →
    mappedPage mem d i j = some p → tableOf mem d' i' ≠ some p

section RoleCounts

variable {managed : Set Nat} {dirs : Finset Nat} {mem : Mem} {d i j t p : Nat}

/-- A page that no entry maps is not counted by the entries. -/
theorem mapCount_eq_zero
    (h : ∀ d i j, d ∈ dirs → i < userPdes → j < nptentries →
      mappedPage mem d i j ≠ some p) :
    mapCount mem dirs p = 0 := by
  unfold mapCount
  rw [Finset.card_eq_zero, Finset.filter_eq_empty_iff]
  rintro ⟨d, i, j⟩ hr
  obtain ⟨hd, hi, hj⟩ := mem_pteSlots.mp hr
  exact h d i j hd hi hj

/-- A directory is referenced once, by its environment. -/
theorem AddrSpaces.refCount_dir
    (hs : AddrSpaces managed dirs mem) (hd : d ∈ dirs) :
    refCount mem dirs d = 1 := by
  have htables : (pdeSlots dirs).filter
      (fun r => tableOf mem r.1 r.2 = some d) = ∅ := by
    rw [Finset.filter_eq_empty_iff]
    rintro ⟨d', i⟩ hr ht
    obtain ⟨hd', hi⟩ := mem_pdeSlots.mp hr
    exact hs.table_not_dir d' i d hd' hi ht hd
  unfold refCount
  rw [htables, if_pos hd, mapCount_eq_zero (fun d' i j hd' hi hj hp =>
    hs.page_not_dir d' i j d hd' hi hj hp hd)]
  rfl

/-- A page table is referenced at most once, and by a directory. -/
theorem AddrSpaces.tableRefs_le_one
    (hs : AddrSpaces managed dirs mem) (p : Nat) :
    ((pdeSlots dirs).filter (fun r => tableOf mem r.1 r.2 = some p)).card ≤ 1 := by
  rw [Finset.card_le_one]
  rintro ⟨d, i⟩ hr ⟨d', i'⟩ hr'
  obtain ⟨hr, ht⟩ := Finset.mem_filter.mp hr
  obtain ⟨hr', ht'⟩ := Finset.mem_filter.mp hr'
  obtain ⟨hd, hi⟩ := mem_pdeSlots.mp hr
  obtain ⟨hd', hi'⟩ := mem_pdeSlots.mp hr'
  obtain ⟨rfl, rfl⟩ := hs.table_inj d i d' i' p hd hi hd' hi' ht ht'
  rfl

/-- Only mapped pages are referenced more than once. -/
theorem AddrSpaces.refCount_le
    (hs : AddrSpaces managed dirs mem) (p : Nat) :
    refCount mem dirs p ≤ max 1 (mapCount mem dirs p) := by
  by_cases hd : p ∈ dirs
  · rw [hs.refCount_dir hd]
    exact le_max_left _ _
  by_cases hp : ∃ d i j, d ∈ dirs ∧ i < userPdes ∧ j < nptentries ∧
      mappedPage mem d i j = some p
  · -- a mapped page is no page table
    obtain ⟨d, i, j, hd', hi, hj, hp⟩ := hp
    have htables : (pdeSlots dirs).filter
        (fun r => tableOf mem r.1 r.2 = some p) = ∅ := by
      rw [Finset.filter_eq_empty_iff]
      rintro ⟨d', i'⟩ hr ht
      obtain ⟨hd', hi'⟩ := mem_pdeSlots.mp hr
      exact hs.page_not_table d i j p d' i' ‹_› hi hj hd' hi' hp ht
    unfold refCount
    rw [htables, if_neg hd]
    exact le_max_right _ _
  · have hzero : mapCount mem dirs p = 0 := mapCount_eq_zero
      (fun d i j hd hi hj hh => hp ⟨d, i, j, hd, hi, hj, hh⟩)
    have := hs.tableRefs_le_one p
    unfold refCount
    rw [hzero, if_neg hd]
    omega

end RoleCounts

/-- Two memories in which the directories in use read the same. -/
structure SameViews (dirs : Finset Nat) (mem mem' : Mem) : Prop where
  table : ∀ d i, d ∈ dirs → i < userPdes → tableOf mem' d i = tableOf mem d i
  entry : ∀ d i j, d ∈ dirs → i < userPdes → j < nptentries →
    entryOf mem' d i j = entryOf mem d i j

section Changes

variable {managed : Set Nat} {dirs : Finset Nat} {mem mem' : Mem}
  {d i j t q : Nat} {w : U32}

theorem SameViews.page
    (h : SameViews dirs mem mem')
    (hd : d ∈ dirs) (hi : i < userPdes) (hj : j < nptentries) :
    mappedPage mem' d i j = mappedPage mem d i j := by
  unfold mappedPage
  rw [h.entry d i j hd hi hj]

theorem SameViews.refCount_eq (h : SameViews dirs mem mem') :
    refCount mem' dirs = refCount mem dirs := by
  funext p
  unfold refCount mapCount
  rw [card_filter_congr (f := fun r : Nat × Nat × Nat =>
        mappedPage mem r.1 r.2.1 r.2.2) p ?_,
    card_filter_congr (f := fun r : Nat × Nat => tableOf mem r.1 r.2) p ?_]
  · rintro ⟨d, i⟩ hr
    obtain ⟨hd, hi⟩ := mem_pdeSlots.mp hr
    exact h.table d i hd hi
  · rintro ⟨d, i, j⟩ hr
    obtain ⟨hd, hi, hj⟩ := mem_pteSlots.mp hr
    exact h.page hd hi hj

theorem SameViews.addrSpaces
    (h : SameViews dirs mem mem') (hs : AddrSpaces managed dirs mem) :
    AddrSpaces managed dirs mem' where
  dir_managed := hs.dir_managed
  table_managed d i t hd hi ht :=
    hs.table_managed d i t hd hi (h.table d i hd hi ▸ ht)
  table_not_dir d i t hd hi ht :=
    hs.table_not_dir d i t hd hi (h.table d i hd hi ▸ ht)
  table_inj d i d' i' t hd hi hd' hi' ht ht' :=
    hs.table_inj d i d' i' t hd hi hd' hi' (h.table d i hd hi ▸ ht)
      (h.table d' i' hd' hi' ▸ ht')
  page_managed d i j p hd hi hj hp :=
    hs.page_managed d i j p hd hi hj (h.page hd hi hj ▸ hp)
  page_not_dir d i j p hd hi hj hp :=
    hs.page_not_dir d i j p hd hi hj (h.page hd hi hj ▸ hp)
  page_not_table d i j p d' i' hd hi hj hd' hi' hp := by
    rw [h.table d' i' hd' hi']
    exact hs.page_not_table d i j p d' i' hd hi hj hd' hi'
      (h.page hd hi hj ▸ hp)

/-- A page that is neither a directory nor a page table can be rewritten
without any directory noticing. -/
theorem sameViews_of_unused
    (hdir : q ∉ dirs)
    (htable : ∀ d i, d ∈ dirs → i < userPdes → tableOf mem d i ≠ some q)
    (hmem : ∀ p, p ≠ q → mem' p = mem p) :
    SameViews dirs mem mem' := by
  have hT : ∀ d i, d ∈ dirs → tableOf mem' d i = tableOf mem d i := by
    intro d i hd
    have hdq : d ≠ q := fun h => hdir (h ▸ hd)
    unfold tableOf
    rw [hmem d hdq]
  refine ⟨fun d i hd _ => hT d i hd, fun d i j hd hi _ => ?_⟩
  unfold entryOf
  rw [hT d i hd]
  cases ht : tableOf mem d i with
  | none => rfl
  | some t =>
      have htq : t ≠ q := fun h => htable d i hd hi (h ▸ ht)
      simp only [hmem t htq]

/-- Where one page table comes or goes and no entry changes, the counts differ by that page
table alone. -/
theorem refCount_table (hd : d ∈ dirs) (hi : i < userPdes)
    (htable : ∀ d' i', d' ∈ dirs → i' < userPdes → ¬ (d' = d ∧ i' = i) →
      tableOf mem' d' i' = tableOf mem d' i')
    (hentry : ∀ d' i' j', d' ∈ dirs → i' < userPdes → j' < nptentries →
      entryOf mem' d' i' j' = entryOf mem d' i' j') (p : Nat) :
    refCount mem' dirs p + (if tableOf mem d i = some p then 1 else 0) =
      refCount mem dirs p + (if tableOf mem' d i = some p then 1 else 0) := by
  have hpte := card_filter_congr (S := pteSlots dirs)
    (f := fun r : Nat × Nat × Nat => mappedPage mem r.1 r.2.1 r.2.2)
    (g := fun r : Nat × Nat × Nat => mappedPage mem' r.1 r.2.1 r.2.2) p (by
      rintro ⟨d', i', j'⟩ hr
      obtain ⟨hd', hi', hj'⟩ := mem_pteSlots.mp hr
      exact congrArg (Option.map pgnum) (hentry d' i' j' hd' hi' hj'))
  have hpde := card_filter_update (S := pdeSlots dirs)
    (f := fun r : Nat × Nat => tableOf mem r.1 r.2)
    (g := fun r : Nat × Nat => tableOf mem' r.1 r.2) (i := (d, i)) p
    (mem_pdeSlots.mpr ⟨hd, hi⟩) (by
      rintro ⟨d', i'⟩ hr hne
      obtain ⟨hd', hi'⟩ := mem_pdeSlots.mp hr
      exact htable d' i' hd' hi' (fun hh => hne (by rw [hh.1, hh.2])))
  unfold refCount mapCount
  simp only at hpde
  omega

/-! ### A page table appears -/

theorem tableOf_set_dir
    (hw : HasFlag w pteP) (hdt : pgnum w = t) :
    tableOf (mem.set d i w) d i = some t :=
  tableOf_eq_some.mpr ⟨by rwa [Mem.set_self], by rw [Mem.set_self, hdt]⟩

theorem tableOf_set_of_ne {d' i' : Nat}
    (h : ¬ (d' = d ∧ i' = i)) :
    tableOf (mem.set d i w) d' i' = tableOf mem d' i' := by
  unfold tableOf
  rw [Mem.set_of_ne h]

/-- Writing a directory entry leaves the page tables themselves alone. -/
theorem entryOf_set_dir_of_ne
    (hs : AddrSpaces managed dirs mem) (hd : d ∈ dirs)
    {d' i' j' : Nat} (hd' : d' ∈ dirs) (hi' : i' < userPdes)
    (h : ¬ (d' = d ∧ i' = i)) :
    entryOf (mem.set d i w) d' i' j' = entryOf mem d' i' j' := by
  unfold entryOf
  rw [tableOf_set_of_ne h]
  cases ht : tableOf mem d' i' with
  | none => rfl
  | some t' =>
      have hne : t' ≠ d := fun h =>
        hs.table_not_dir d' i' t' hd' hi' ht (h ▸ hd)
      simp only [Mem.set_of_ne (fun hh : t' = d ∧ j' = i => hne hh.1)]

/-- What a directory with one more, empty, page table looks like. -/
structure AddsTable (dirs : Finset Nat) (d i t : Nat) (mem mem' : Mem) :
    Prop where
  here : tableOf mem' d i = some t
  table : ∀ d' i', d' ∈ dirs → i' < userPdes → ¬ (d' = d ∧ i' = i) →
    tableOf mem' d' i' = tableOf mem d' i'
  entry : ∀ d' i' j', d' ∈ dirs → i' < userPdes → j' < nptentries →
    entryOf mem' d' i' j' = entryOf mem d' i' j'

theorem addsTable_set
    (hs : AddrSpaces managed dirs mem) (hd : d ∈ dirs)
    (hnone : tableOf mem d i = none)
    (hw : HasFlag w pteP) (hwt : pgnum w = t) (htd : t ≠ d)
    (hempty : ∀ j, ¬ HasFlag (mem t j) pteP) :
    AddsTable dirs d i t mem (mem.set d i w) where
  here := tableOf_set_dir hw hwt
  table d' i' _ _ h := tableOf_set_of_ne h
  entry d' i' j' hd' hi' _ := by
    by_cases h : d' = d ∧ i' = i
    · obtain ⟨rfl, rfl⟩ := h
      rw [entryOf_of_no_table hnone, entryOf_of_table (tableOf_set_dir hw hwt),
        Mem.set_of_ne (fun hh => htd hh.1), if_neg (hempty j')]
    · exact entryOf_set_dir_of_ne hs hd hd' hi' h

theorem AddsTable.page
    (h : AddsTable dirs d i t mem mem')
    {d' i' j' : Nat} (hd' : d' ∈ dirs) (hi' : i' < userPdes)
    (hj' : j' < nptentries) :
    mappedPage mem' d' i' j' = mappedPage mem d' i' j' := by
  unfold mappedPage
  rw [h.entry d' i' j' hd' hi' hj']

theorem AddsTable.refCount_eq
    (h : AddsTable dirs d i t mem mem') (hd : d ∈ dirs) (hi : i < userPdes)
    (hnone : tableOf mem d i = none) :
    refCount mem' dirs = incr (refCount mem dirs) t := by
  refine eq_incr (fun p => ?_)
  have hadd := refCount_table hd hi h.table h.entry p
  rw [hnone, h.here] at hadd
  simpa using hadd

theorem AddsTable.addrSpaces
    (h : AddsTable dirs d i t mem mem') (hs : AddrSpaces managed dirs mem)
    (ht : t ∈ managed) (hfresh : refCount mem dirs t = 0) :
    AddrSpaces managed dirs mem' := by
  have htdir : t ∉ dirs := fun hh => by
    have : 0 < refCount mem dirs t := refCount_pos_of_dir hh
    omega
  have htable : ∀ d' i', d' ∈ dirs → i' < userPdes →
      tableOf mem d' i' ≠ some t := fun d' i' hd' hi' hh => by
    have := refCount_pos_of_table hd' hi' hh
    omega
  -- a slot names `t` exactly if it is the new one
  have hcases : ∀ d' i' t', d' ∈ dirs → i' < userPdes →
      tableOf mem' d' i' = some t' →
      (d' = d ∧ i' = i ∧ t' = t) ∨
        (¬ (d' = d ∧ i' = i) ∧ tableOf mem d' i' = some t') := by
    intro d' i' t' hd' hi' ht'
    by_cases hh : d' = d ∧ i' = i
    · obtain ⟨rfl, rfl⟩ := hh
      exact Or.inl ⟨rfl, rfl, (Option.some.inj (h.here.symm.trans ht')).symm⟩
    · exact Or.inr ⟨hh, (h.table d' i' hd' hi' hh).symm.trans ht'⟩
  refine ⟨hs.dir_managed, ?_, ?_, ?_, ?_, ?_, ?_⟩
  · intro d' i' t' hd' hi' ht'
    rcases hcases d' i' t' hd' hi' ht' with ⟨_, _, rfl⟩ | ⟨_, ht'⟩
    · exact ht
    · exact hs.table_managed d' i' t' hd' hi' ht'
  · intro d' i' t' hd' hi' ht'
    rcases hcases d' i' t' hd' hi' ht' with ⟨_, _, rfl⟩ | ⟨_, ht'⟩
    · exact htdir
    · exact hs.table_not_dir d' i' t' hd' hi' ht'
  · intro d₁ i₁ d₂ i₂ t' hd₁ hi₁ hd₂ hi₂ h₁ h₂
    rcases hcases d₁ i₁ t' hd₁ hi₁ h₁ with ⟨rfl, rfl, rfl⟩ | ⟨_, h₁⟩
    · rcases hcases d₂ i₂ t' hd₂ hi₂ h₂ with ⟨rfl, rfl, _⟩ | ⟨_, h₂⟩
      · exact ⟨rfl, rfl⟩
      · exact absurd h₂ (htable d₂ i₂ hd₂ hi₂)
    · rcases hcases d₂ i₂ t' hd₂ hi₂ h₂ with ⟨_, _, rfl⟩ | ⟨_, h₂⟩
      · exact absurd h₁ (htable d₁ i₁ hd₁ hi₁)
      · exact hs.table_inj d₁ i₁ d₂ i₂ t' hd₁ hi₁ hd₂ hi₂ h₁ h₂
  · intro d' i' j' p hd' hi' hj' hp
    exact hs.page_managed d' i' j' p hd' hi' hj' (h.page hd' hi' hj' ▸ hp)
  · intro d' i' j' p hd' hi' hj' hp
    exact hs.page_not_dir d' i' j' p hd' hi' hj' (h.page hd' hi' hj' ▸ hp)
  · intro d₁ i₁ j₁ p d₂ i₂ hd₁ hi₁ hj₁ hd₂ hi₂ hp h₂
    rw [h.page hd₁ hi₁ hj₁] at hp
    rcases hcases d₂ i₂ p hd₂ hi₂ h₂ with ⟨_, _, rfl⟩ | ⟨_, h₂⟩
    · have := refCount_pos_of_page hd₁ hi₁ hj₁ hp
      omega
    · exact hs.page_not_table d₁ i₁ j₁ p d₂ i₂ hd₁ hi₁ hj₁ hd₂ hi₂ hp h₂

/-! ### One entry of a page table changes -/

/-- Two memories that read the same but for one page-table entry. -/
structure SetsEntry (dirs : Finset Nat) (d i j : Nat) (w : U32)
    (mem mem' : Mem) : Prop where
  table : ∀ d' i', d' ∈ dirs → i' < userPdes →
    tableOf mem' d' i' = tableOf mem d' i'
  here : entryOf mem' d i j = if HasFlag w pteP then some w else none
  entry : ∀ d' i' j', d' ∈ dirs → i' < userPdes → j' < nptentries →
    ¬ (d' = d ∧ i' = i ∧ j' = j) →
    entryOf mem' d' i' j' = entryOf mem d' i' j'

/-- A page table serves one slot only, so a write to it is seen there only. -/
theorem setsEntry_set
    (hs : AddrSpaces managed dirs mem) (hd : d ∈ dirs) (hi : i < userPdes)
    (ht : tableOf mem d i = some t) :
    SetsEntry dirs d i j w mem (mem.set t j w) := by
  have htd : t ∉ dirs := hs.table_not_dir d i t hd hi ht
  have htable : ∀ d' i', d' ∈ dirs →
      tableOf (mem.set t j w) d' i' = tableOf mem d' i' := fun d' i' hd' =>
    tableOf_set_of_ne (fun hh => htd (hh.1 ▸ hd'))
  refine ⟨fun d' i' hd' _ => htable d' i' hd', ?_, ?_⟩
  · rw [entryOf_of_table ((htable d i hd).trans ht), Mem.set_self]
  · intro d' i' j' hd' hi' _ hne
    unfold entryOf
    rw [htable d' i' hd']
    cases ht' : tableOf mem d' i' with
    | none => rfl
    | some t' =>
        have hword : (mem.set t j w) t' j' = mem t' j' := by
          refine Mem.set_of_ne ?_
          rintro ⟨rfl, rfl⟩
          obtain ⟨rfl, rfl⟩ := hs.table_inj d i d' i' t' hd hi hd' hi' ht ht'
          exact hne ⟨rfl, rfl, rfl⟩
        simp only [hword]

section Entry

variable (h : SetsEntry dirs d i j w mem mem')
include h

theorem SetsEntry.page_here :
    mappedPage mem' d i j = if HasFlag w pteP then some (pgnum w) else none := by
  unfold mappedPage
  rw [h.here]
  split <;> rfl

theorem SetsEntry.page_of_ne
    {d' i' j' : Nat} (hd' : d' ∈ dirs) (hi' : i' < userPdes)
    (hj' : j' < nptentries) (hne : ¬ (d' = d ∧ i' = i ∧ j' = j)) :
    mappedPage mem' d' i' j' = mappedPage mem d' i' j' := by
  unfold mappedPage
  rw [h.entry d' i' j' hd' hi' hj' hne]

theorem SetsEntry.refCount_add
    (hd : d ∈ dirs) (hi : i < userPdes) (hj : j < nptentries) (p : Nat) :
    refCount mem' dirs p + (if mappedPage mem d i j = some p then 1 else 0) =
      refCount mem dirs p +
        (if mappedPage mem' d i j = some p then 1 else 0) := by
  have hpte := card_filter_update (S := pteSlots dirs)
    (f := fun r : Nat × Nat × Nat => mappedPage mem r.1 r.2.1 r.2.2)
    (g := fun r : Nat × Nat × Nat => mappedPage mem' r.1 r.2.1 r.2.2)
    (i := (d, i, j)) p (mem_pteSlots.mpr ⟨hd, hi, hj⟩) (by
      rintro ⟨d', i', j'⟩ hr hne
      obtain ⟨hd', hi', hj'⟩ := mem_pteSlots.mp hr
      refine h.page_of_ne hd' hi' hj' ?_
      rintro ⟨rfl, rfl, rfl⟩
      exact hne rfl)
  have hpde := card_filter_congr (S := pdeSlots dirs)
    (f := fun r : Nat × Nat => tableOf mem r.1 r.2)
    (g := fun r : Nat × Nat => tableOf mem' r.1 r.2) p (by
      rintro ⟨d', i'⟩ hr
      obtain ⟨hd', hi'⟩ := mem_pdeSlots.mp hr
      exact h.table d' i' hd' hi')
  unfold refCount mapCount
  simp only at hpte
  omega

/-- Filling an empty slot makes one reference. -/
theorem SetsEntry.refCount_fill
    (hd : d ∈ dirs) (hi : i < userPdes) (hj : j < nptentries)
    (hempty : entryOf mem d i j = none) (hw : HasFlag w pteP) :
    refCount mem' dirs = incr (refCount mem dirs) (pgnum w) := by
  refine eq_incr (fun p => ?_)
  have hadd := h.refCount_add hd hi hj p
  rw [h.page_here, if_pos hw, mappedPage, hempty] at hadd
  simpa using hadd

/-- Clearing a slot drops the reference it held. -/
theorem SetsEntry.refCount_clear
    (hd : d ∈ dirs) (hi : i < userPdes) (hj : j < nptentries)
    (hq : mappedPage mem d i j = some q) (hw : ¬ HasFlag w pteP) :
    refCount mem' dirs = decr (refCount mem dirs) q := by
  refine eq_decr (fun p => ?_)
  have hadd := h.refCount_add hd hi hj p
  rw [h.page_here, if_neg hw, hq] at hadd
  simpa using hadd

/-- The shape survives if the page entered is fit to be mapped. -/
theorem SetsEntry.addrSpaces
    (hs : AddrSpaces managed dirs mem)
    (hfit : HasFlag w pteP → pgnum w ∈ managed ∧ pgnum w ∉ dirs ∧
      ∀ d' i', d' ∈ dirs → i' < userPdes → tableOf mem d' i' ≠ some (pgnum w)) :
    AddrSpaces managed dirs mem' := by
  -- a mapped page is the new one or was mapped before
  have hcases : ∀ d' i' j' p, d' ∈ dirs → i' < userPdes → j' < nptentries →
      mappedPage mem' d' i' j' = some p →
      (HasFlag w pteP ∧ p = pgnum w) ∨ mappedPage mem d' i' j' = some p := by
    intro d' i' j' p hd' hi' hj' hp
    by_cases hh : d' = d ∧ i' = i ∧ j' = j
    · obtain ⟨rfl, rfl, rfl⟩ := hh
      rw [h.page_here] at hp
      split at hp
      · exact Or.inl ⟨‹_›, (Option.some.inj hp).symm⟩
      · exact absurd hp (by simp)
    · exact Or.inr ((h.page_of_ne hd' hi' hj' hh).symm.trans hp)
  refine ⟨hs.dir_managed, ?_, ?_, ?_, ?_, ?_, ?_⟩
  · intro d' i' t' hd' hi' ht'
    exact hs.table_managed d' i' t' hd' hi' (h.table d' i' hd' hi' ▸ ht')
  · intro d' i' t' hd' hi' ht'
    exact hs.table_not_dir d' i' t' hd' hi' (h.table d' i' hd' hi' ▸ ht')
  · intro d₁ i₁ d₂ i₂ t' hd₁ hi₁ hd₂ hi₂ h₁ h₂
    exact hs.table_inj d₁ i₁ d₂ i₂ t' hd₁ hi₁ hd₂ hi₂
      (h.table d₁ i₁ hd₁ hi₁ ▸ h₁) (h.table d₂ i₂ hd₂ hi₂ ▸ h₂)
  · intro d' i' j' p hd' hi' hj' hp
    rcases hcases d' i' j' p hd' hi' hj' hp with ⟨hw, rfl⟩ | hp
    · exact (hfit hw).1
    · exact hs.page_managed d' i' j' p hd' hi' hj' hp
  · intro d' i' j' p hd' hi' hj' hp
    rcases hcases d' i' j' p hd' hi' hj' hp with ⟨hw, rfl⟩ | hp
    · exact (hfit hw).2.1
    · exact hs.page_not_dir d' i' j' p hd' hi' hj' hp
  · intro d₁ i₁ j₁ p d₂ i₂ hd₁ hi₁ hj₁ hd₂ hi₂ hp
    rw [h.table d₂ i₂ hd₂ hi₂]
    rcases hcases d₁ i₁ j₁ p hd₁ hi₁ hj₁ hp with ⟨hw, rfl⟩ | hp
    · exact (hfit hw).2.2 d₂ i₂ hd₂ hi₂
    · exact hs.page_not_table d₁ i₁ j₁ p d₂ i₂ hd₁ hi₁ hj₁ hd₂ hi₂ hp

end Entry

/-! ### A page table disappears -/

/-- Two memories that read the same but for one page table, empty before and
gone after. -/
structure DropsTable (dirs : Finset Nat) (d i : Nat) (mem mem' : Mem) :
    Prop where
  here : tableOf mem' d i = none
  table : ∀ d' i', d' ∈ dirs → i' < userPdes → ¬ (d' = d ∧ i' = i) →
    tableOf mem' d' i' = tableOf mem d' i'
  entry : ∀ d' i' j', d' ∈ dirs → i' < userPdes → j' < nptentries →
    entryOf mem' d' i' j' = entryOf mem d' i' j'

theorem dropsTable_set
    (hs : AddrSpaces managed dirs mem) (hd : d ∈ dirs)
    (hempty : ∀ j, j < nptentries → entryOf mem d i j = none) :
    DropsTable dirs d i mem (mem.set d i 0#32) := by
  have hhere : tableOf (mem.set d i 0#32) d i = none :=
    tableOf_eq_none.mpr (by simp)
  refine ⟨hhere, fun d' i' _ _ hne => tableOf_set_of_ne hne, ?_⟩
  intro d' i' j' hd' hi' hj'
  by_cases hne : d' = d ∧ i' = i
  · obtain ⟨rfl, rfl⟩ := hne
    rw [entryOf_of_no_table hhere, hempty j' hj']
  · exact entryOf_set_dir_of_ne hs hd hd' hi' hne

theorem DropsTable.refCount_eq
    (h : DropsTable dirs d i mem mem') (hd : d ∈ dirs) (hi : i < userPdes)
    (ht : tableOf mem d i = some t) :
    refCount mem' dirs = decr (refCount mem dirs) t := by
  refine eq_decr (fun p => ?_)
  have hadd := refCount_table hd hi h.table h.entry p
  rw [ht, h.here] at hadd
  simpa using hadd

theorem DropsTable.addrSpaces
    (h : DropsTable dirs d i mem mem') (hs : AddrSpaces managed dirs mem) :
    AddrSpaces managed dirs mem' := by
  have htable : ∀ d' i' t', d' ∈ dirs → i' < userPdes →
      tableOf mem' d' i' = some t' → tableOf mem d' i' = some t' := by
    intro d' i' t' hd' hi' ht'
    by_cases hne : d' = d ∧ i' = i
    · obtain ⟨rfl, rfl⟩ := hne
      exact absurd (h.here.symm.trans ht') (by simp)
    · exact (h.table d' i' hd' hi' hne).symm.trans ht'
  have hpage : ∀ d' i' j' p, d' ∈ dirs → i' < userPdes → j' < nptentries →
      mappedPage mem' d' i' j' = some p → mappedPage mem d' i' j' = some p := by
    intro d' i' j' p hd' hi' hj' hp
    rw [mappedPage, h.entry d' i' j' hd' hi' hj'] at hp
    exact hp
  refine ⟨hs.dir_managed, ?_, ?_, ?_, ?_, ?_, ?_⟩
  · intro d' i' t' hd' hi' ht'
    exact hs.table_managed d' i' t' hd' hi' (htable d' i' t' hd' hi' ht')
  · intro d' i' t' hd' hi' ht'
    exact hs.table_not_dir d' i' t' hd' hi' (htable d' i' t' hd' hi' ht')
  · intro d₁ i₁ d₂ i₂ t' hd₁ hi₁ hd₂ hi₂ h₁ h₂
    exact hs.table_inj d₁ i₁ d₂ i₂ t' hd₁ hi₁ hd₂ hi₂
      (htable d₁ i₁ t' hd₁ hi₁ h₁) (htable d₂ i₂ t' hd₂ hi₂ h₂)
  · intro d' i' j' p hd' hi' hj' hp
    exact hs.page_managed d' i' j' p hd' hi' hj' (hpage d' i' j' p hd' hi' hj' hp)
  · intro d' i' j' p hd' hi' hj' hp
    exact hs.page_not_dir d' i' j' p hd' hi' hj' (hpage d' i' j' p hd' hi' hj' hp)
  · intro d₁ i₁ j₁ p d₂ i₂ hd₁ hi₁ hj₁ hd₂ hi₂ hp h₂
    exact hs.page_not_table d₁ i₁ j₁ p d₂ i₂ hd₁ hi₁ hj₁ hd₂ hi₂
      (hpage d₁ i₁ j₁ p hd₁ hi₁ hj₁ hp) (htable d₂ i₂ p hd₂ hi₂ h₂)

/-! ### A directory comes into use or goes out of use -/

theorem refCount_insert_dir
    (hd : d ∉ dirs) (hempty : ∀ i, i < userPdes → tableOf mem d i = none) :
    refCount mem (insert d dirs) = incr (refCount mem dirs) d := by
  funext p
  have hpte : (pteSlots (insert d dirs)).filter
        (fun r => mappedPage mem r.1 r.2.1 r.2.2 = some p) =
      (pteSlots dirs).filter
        (fun r => mappedPage mem r.1 r.2.1 r.2.2 = some p) := by
    ext ⟨d', i', j'⟩
    simp only [Finset.mem_filter, mem_pteSlots, Finset.mem_insert]
    constructor
    · rintro ⟨⟨rfl | hd', hi', hj'⟩, hp⟩
      · simp [mappedPage, entryOf_of_no_table (hempty i' hi')] at hp
      · exact ⟨⟨hd', hi', hj'⟩, hp⟩
    · rintro ⟨⟨hd', hi', hj'⟩, hp⟩
      exact ⟨⟨Or.inr hd', hi', hj'⟩, hp⟩
  have hpde : (pdeSlots (insert d dirs)).filter
        (fun r => tableOf mem r.1 r.2 = some p) =
      (pdeSlots dirs).filter (fun r => tableOf mem r.1 r.2 = some p) := by
    ext ⟨d', i'⟩
    simp only [Finset.mem_filter, mem_pdeSlots, Finset.mem_insert]
    constructor
    · rintro ⟨⟨rfl | hd', hi'⟩, hp⟩
      · simp [hempty i' hi'] at hp
      · exact ⟨⟨hd', hi'⟩, hp⟩
    · rintro ⟨⟨hd', hi'⟩, hp⟩
      exact ⟨⟨Or.inr hd', hi'⟩, hp⟩
  unfold incr
  by_cases hp : p = d
  · subst hp
    rw [Function.update_self]
    unfold refCount mapCount
    rw [hpte, hpde, if_pos (Finset.mem_insert_self p dirs), if_neg hd]
  · rw [Function.update_of_ne hp]
    unfold refCount mapCount
    rw [hpte, hpde]
    simp [hp]

theorem refCount_erase_dir
    (hd : d ∈ dirs) (hempty : ∀ i, i < userPdes → tableOf mem d i = none) :
    refCount mem (dirs.erase d) = decr (refCount mem dirs) d := by
  have hins : refCount mem (insert d (dirs.erase d)) = _ :=
    refCount_insert_dir (Finset.notMem_erase d dirs) hempty
  rw [Finset.insert_erase hd] at hins
  funext p
  rw [hins, decr, incr, Function.update_self, Function.update_idem]
  by_cases hp : p = d
  · subst hp
    simp
  · rw [Function.update_of_ne hp]

theorem AddrSpaces.insert_dir
    (hs : AddrSpaces managed dirs mem) (hd : d ∈ managed)
    (hfresh : refCount mem dirs d = 0)
    (hempty : ∀ i, i < userPdes → tableOf mem d i = none) :
    AddrSpaces managed (insert d dirs) mem := by
  have hT : ∀ d' i' t', d' ∈ insert d dirs → i' < userPdes →
      tableOf mem d' i' = some t' → d' ∈ dirs := by
    intro d' i' t' hd' hi' ht'
    rcases Finset.mem_insert.mp hd' with rfl | hd'
    · exact absurd ((hempty i' hi').symm.trans ht') (by simp)
    · exact hd'
  have hP : ∀ d' i' j' p, d' ∈ insert d dirs → i' < userPdes →
      mappedPage mem d' i' j' = some p → d' ∈ dirs := by
    intro d' i' j' p hd' hi' hp
    rcases Finset.mem_insert.mp hd' with rfl | hd'
    · simp [mappedPage, entryOf_of_no_table (hempty i' hi')] at hp
    · exact hd'
  refine ⟨?_, ?_, ?_, ?_, ?_, ?_, ?_⟩
  · intro d' hd'
    rcases Finset.mem_insert.mp hd' with rfl | hd'
    · exact hd
    · exact hs.dir_managed d' hd'
  · intro d' i' t' hd' hi' ht'
    exact hs.table_managed d' i' t' (hT d' i' t' hd' hi' ht') hi' ht'
  · intro d' i' t' hd' hi' ht' hmem
    have hd'' := hT d' i' t' hd' hi' ht'
    rcases Finset.mem_insert.mp hmem with rfl | hmem
    · have := refCount_pos_of_table hd'' hi' ht'
      omega
    · exact hs.table_not_dir d' i' t' hd'' hi' ht' hmem
  · intro d₁ i₁ d₂ i₂ t' hd₁ hi₁ hd₂ hi₂ h₁ h₂
    exact hs.table_inj d₁ i₁ d₂ i₂ t' (hT d₁ i₁ t' hd₁ hi₁ h₁) hi₁
      (hT d₂ i₂ t' hd₂ hi₂ h₂) hi₂ h₁ h₂
  · intro d' i' j' p hd' hi' hj' hp
    exact hs.page_managed d' i' j' p (hP d' i' j' p hd' hi' hp) hi' hj' hp
  · intro d' i' j' p hd' hi' hj' hp hmem
    have hd'' := hP d' i' j' p hd' hi' hp
    rcases Finset.mem_insert.mp hmem with rfl | hmem
    · have := refCount_pos_of_page hd'' hi' hj' hp
      omega
    · exact hs.page_not_dir d' i' j' p hd'' hi' hj' hp hmem
  · intro d₁ i₁ j₁ p d₂ i₂ hd₁ hi₁ hj₁ hd₂ hi₂ hp h₂
    exact hs.page_not_table d₁ i₁ j₁ p d₂ i₂ (hP d₁ i₁ j₁ p hd₁ hi₁ hp) hi₁
      hj₁ (hT d₂ i₂ p hd₂ hi₂ h₂) hi₂ hp h₂

theorem AddrSpaces.erase_dir (hs : AddrSpaces managed dirs mem) :
    AddrSpaces managed (dirs.erase d) mem := by
  have hsub : ∀ {x}, x ∈ dirs.erase d → x ∈ dirs := fun hx =>
    Finset.mem_of_mem_erase hx
  refine ⟨fun d' hd' => hs.dir_managed d' (hsub hd'), ?_, ?_, ?_, ?_, ?_, ?_⟩
  · intro d' i' t' hd' hi' ht'
    exact hs.table_managed d' i' t' (hsub hd') hi' ht'
  · intro d' i' t' hd' hi' ht' hmem
    exact hs.table_not_dir d' i' t' (hsub hd') hi' ht' (hsub hmem)
  · intro d₁ i₁ d₂ i₂ t' hd₁ hi₁ hd₂ hi₂ h₁ h₂
    exact hs.table_inj d₁ i₁ d₂ i₂ t' (hsub hd₁) hi₁ (hsub hd₂) hi₂ h₁ h₂
  · intro d' i' j' p hd' hi' hj' hp
    exact hs.page_managed d' i' j' p (hsub hd') hi' hj' hp
  · intro d' i' j' p hd' hi' hj' hp hmem
    exact hs.page_not_dir d' i' j' p (hsub hd') hi' hj' hp (hsub hmem)
  · intro d₁ i₁ j₁ p d₂ i₂ hd₁ hi₁ hj₁ hd₂ hi₂ hp h₂
    exact hs.page_not_table d₁ i₁ j₁ p d₂ i₂ (hsub hd₁) hi₁ hj₁ (hsub hd₂) hi₂
      hp h₂

end Changes

end Jos

import Jos.Lib.OpenList
import Jos.FreePages

/-!
# The order of the free list

While `entry_pgdir` is loaded only the pages below 4 MiB are mapped, so `check_page_free_list(1)`
moves them to the front of `page_free_list`.  One walk along the list makes two lists out of it, and
enters every page through a pointer to the last link of its list: a local variable at first, and
then the `pp_link` of the page before.  The walk reads the link of a page before it is stored to.

`Parted` is what holds in each turn.
-/

namespace Jos

open Programs LinkedList

/-! ## `check_page_free_list` -/

/-- `pdx_limit`. -/
def pdxLimit (onlyLowMemory : Bool) : Nat := if onlyLowMemory then 1 else npdentries

/-- A `struct PageInfo **`: the address of one of two variables, or of the `pp_link` of a page. -/
inductive LinkPtr where
  | pp1
  | pp2
  | ppLink (pp : Nat)
deriving DecidableEq

/-- Memory, and the variables of the reordering. -/
structure Reordering where
  vm : PhysMem
  pp : Option Nat
  pp1 : Option Nat
  pp2 : Option Nat
  tp : Bool → LinkPtr

/-- `pagetype`. -/
def pagetype (pp : Nat) : Bool := decide (pdxLimit true ≤ pdx (page2pa pp))

namespace Reordering

/-- A store through a pointer. -/
def store (s : Reordering) : LinkPtr → Option Nat → Reordering
  | .pp1, pp => { s with pp1 := pp }
  | .pp2, pp => { s with pp2 := pp }
  | .ppLink q, pp => { s with vm := s.vm.setLink q pp }

/-- One turn of the loop, at page `pp`. -/
def turn (s : Reordering) (pp : Nat) : Reordering :=
  let s := s.store (s.tp (pagetype pp)) (some pp)
  let s := { s with tp := Function.update s.tp (pagetype pp) (.ppLink pp) }
  { s with pp := (s.vm.pages pp).ppLink }

/-- The loop. -/
def loop : Nat → Reordering → Option Reordering
  | 0, _ => none
  | fuel + 1, s =>
      match s.pp with
      | none => some s
      | some pp => loop fuel (s.turn pp)

/-- Behind the loop the two lists are joined. -/
def join (s : Reordering) : PhysMem :=
  let s := s.store (s.tp true) none
  let s := s.store (s.tp false) s.pp2
  s.vm.setFreeList s.pp1

end Reordering

/-- The reordering, for lists that are shorter than `fuel`.  What is in `pp1` and `pp2` before is
left open. -/
def reorder (fuel : Nat) (pp1 pp2 : Option Nat) : Prog PhysMem Unit := do
  let m ← Prog.get
  let tp : Bool → LinkPtr := fun t => if t then .pp2 else .pp1
  match Reordering.loop fuel ⟨m, m.pageFreeList, pp1, pp2, tp⟩ with
  | none => Prog.stop
  | some s => Prog.modify (fun _ => s.join)

/-- `for (pp = page_free_list; pp; pp = pp->pp_link)`. -/
def forFreePages {α : Type} (body : α → Nat → Prog PhysMem α) :
    Nat → Option Nat → α → Prog PhysMem α
  | 0, _, _ => Prog.stop
  | _ + 1, none, a => pure a
  | fuel + 1, some pp, a => do
      let a ← body a pp
      let m ← Prog.get
      forFreePages body fuel (m.pages pp).ppLink a

/-- `memset(page2kva(pp), 0x97, 128)`, for a page below the limit. -/
def poisonPage (limit pp : Nat) : Prog PhysMem Unit :=
  Prog.when (pdx (page2pa pp) < limit) (do
    let kva ← page2kva pp
    Prog.modify (fun m =>
      m.setPage kva (fun i => if i < 32 then 0x97979797#32 else m.mem kva i)))

/-- The assertions about a page of the list, with `nfree_basemem` and `nfree_extmem`.  A page is
known by its number, so that it is in no other place than in `pages`. -/
def checkFreePage (firstFreePage : U32) (nfree : Nat × Nat) (pp : Nat) :
    Prog PhysMem (Nat × Nat) := do
  let m ← Prog.get
  Prog.when (m.npages ≤ pp) Prog.stop
  let pa := page2pa pp
  Prog.when (pa = 0#32) Prog.stop
  Prog.when (pa = iophysmem) Prog.stop
  Prog.when (pa = extphysmem - pgsize) Prog.stop
  Prog.when (pa = extphysmem) Prog.stop
  Prog.when (extphysmem ≤ pa) (do
    let _ ← page2kva pp
    Prog.when (kernbase + pa < firstFreePage) Prog.stop)
  Prog.when (pa = mpentryPaddr) Prog.stop
  pure (if pa < extphysmem then (nfree.1 + 1, nfree.2) else (nfree.1, nfree.2 + 1))

/-- `check_page_free_list`. -/
def checkPageFreeList (b : BootInfo) (fuel : Nat) (pp1 pp2 : Option Nat)
    (onlyLowMemory : Bool) : Prog BootState Unit := do
  let s ← Prog.get
  Prog.when (s.vm.pageFreeList = none) Prog.stop
  Prog.when (onlyLowMemory = true) (onBoot (reorder fuel pp1 pp2))
  let s ← Prog.get
  onBoot (forFreePages (fun _ => poisonPage (pdxLimit onlyLowMemory)) fuel s.vm.pageFreeList ())
  let firstFreePage ← bootAlloc b 0#32
  let s ← Prog.get
  let nfree ← onBoot (forFreePages (checkFreePage firstFreePage) fuel s.vm.pageFreeList (0, 0))
  Prog.when (nfree.1 = 0) Prog.stop
  Prog.when (nfree.2 = 0) Prog.stop

/-! ## What the order should be -/

/-- The page is one of those that `entry_pgdir` maps. -/
def LowPage (pp : Nat) : Prop := page2pa pp < 0x400000#32

instance (pp : Nat) : Decidable (LowPage pp) := inferInstanceAs (Decidable (_ < _))

/-- The same pages, the low ones before all others, and both in the order of `l`. -/
structure LowFirst (l l' : List Nat) : Prop where
  perm : l'.Perm l
  sorted : l'.Pairwise (fun p q => LowPage q → LowPage p)
  low : l'.filter (fun p => LowPage p) = l.filter (fun p => LowPage p)
  high : l'.filter (fun p => ¬ LowPage p) = l.filter (fun p => ¬ LowPage p)

/-- Calls of `page_alloc`, one after the other. -/
def pageAllocs : List Bool → Prog PhysMem (List (Option Nat))
  | [] => pure []
  | allocZero :: flags => do
      let r ← pageAlloc allocZero
      let rs ← pageAllocs flags
      pure (r :: rs)

/-- Calls of `page_alloc` return the pages of `l`, and then null. -/
def AllocatesInOrder (m : PhysMem) (l : List Nat) : Prop :=
  ∀ flags : List Bool, ∃ m', (pageAllocs flags).run m =
    .ret ((l.map some ++ List.replicate flags.length none).take flags.length) m'

/-! ## The two lists -/

/-- The links of all pages. -/
abbrev links (m : PhysMem) : Nat → Option Nat := fun p => (m.pages p).ppLink

theorem links_setLink {m : PhysMem} {q : Nat} {v : Option Nat} :
    links (m.setLink q v) = Function.update (links m) q v := by
  funext p
  unfold links PhysMem.setLink
  by_cases hp : p = q
  · subst hp
    simp
  · simp [hp]

theorem pagetype_eq (pp : Nat) : pagetype pp = decide (¬ LowPage pp) := by
  have hlow : 1 ≤ pdx (page2pa pp) ↔ ¬ LowPage pp := by
    unfold LowPage
    rw [pdx_eq, BitVec.lt_def]
    show _ ↔ ¬ _ < 4194304
    omega
  exact decide_eq_decide.mpr hlow

namespace Reordering

/-- The head of the list of pages of one type. -/
def head (s : Reordering) (t : Bool) : Option Nat := if t then s.pp2 else s.pp1

/-- Where the last link of this list is, if it has these pages. -/
def lastPtr (t : Bool) (l : List Nat) : LinkPtr :=
  match l.getLast? with
  | none => if t then .pp2 else .pp1
  | some p => .ppLink p

/-- The list of pages of one type has these pages, and its last link is still to be set. -/
structure Built (s : Reordering) (t : Bool) (l : List Nat) : Prop where
  visits : Visits (links s.vm) (s.head t) l
  ptr : s.tp t = lastPtr t l

/-- The pages of one type. -/
def part (t : Bool) (l : List Nat) : List Nat := l.filter (fun p => pagetype p = t)

/-- The pages `done` are on the two lists, and the walk has come to `rest`. -/
structure Parted (m : PhysMem) (done rest : List Nat) (s : Reordering) : Prop where
  pp : Chain (links s.vm) s.pp rest
  built : ∀ t, Built s t (part t done)
  nodup : (done ++ rest).Nodup
  outside : ∀ p, p ∉ done → links s.vm p = links m p
  ref : ∀ p, (s.vm.pages p).ppRef = (m.pages p).ppRef
  books : m.BooksOnly s.vm

section Stores

variable {s : Reordering} {m : PhysMem} {t t' : Bool} {l l' done rest : List Nat} {p : Nat}
  {v : Option Nat}

@[simp] theorem store_tp (f : LinkPtr) : (s.store f v).tp = s.tp := by
  cases f <;> rfl

@[simp] theorem store_ref (f : LinkPtr) :
    ((s.store f v).vm.pages p).ppRef = (s.vm.pages p).ppRef := by
  cases f with
  | pp1 => rfl
  | pp2 => rfl
  | ppLink q =>
      unfold store PhysMem.setLink
      by_cases hp : p = q
      · subst hp
        simp
      · simp [hp]

theorem store_books (f : LinkPtr) (h : m.BooksOnly s.vm) : m.BooksOnly (s.store f v).vm := by
  cases f with
  | pp1 => exact h
  | pp2 => exact h
  | ppLink q => exact ⟨h.mem, h.npages, h.kernPgdir, h.userMemCheckAddr, h.cr3, h.tlb⟩

/-- The last link of a list is set. -/
theorem Built.store (h : Built s t l) (hnodup : l.Nodup) :
    Visits (links (s.store (s.tp t) v).vm) ((s.store (s.tp t) v).head t) l ∧
      after (links (s.store (s.tp t) v).vm) ((s.store (s.tp t) v).head t) l = v := by
  have hptr := h.ptr
  unfold lastPtr at hptr
  cases hlast : l.getLast? with
  | none =>
      rw [hlast] at hptr
      obtain rfl : l = [] := List.getLast?_eq_none_iff.mp hlast
      rw [hptr]
      refine ⟨visits_nil, ?_⟩
      cases t <;> rfl
  | some b =>
      rw [hlast] at hptr
      rw [hptr]
      have hhead : (s.store (.ppLink b) v).head t = s.head t := rfl
      have hlinks : links (s.store (.ppLink b) v).vm = Function.update (links s.vm) b v :=
        links_setLink
      rw [hhead, hlinks]
      exact h.visits.store hnodup hlast

/-- Links of pages that are not on it do not change. -/
theorem Built.store_links (h : Built s t l) (hp : p ∉ l) :
    links (s.store (s.tp t) v).vm p = links s.vm p := by
  have hptr := h.ptr
  unfold lastPtr at hptr
  cases hlast : l.getLast? with
  | none =>
      rw [hlast] at hptr
      rw [hptr]
      cases t <;> rfl
  | some b =>
      rw [hlast] at hptr
      rw [hptr]
      have hlinks : links (s.store (.ppLink b) v).vm = Function.update (links s.vm) b v :=
        links_setLink
      rw [hlinks]
      refine Function.update_of_ne ?_ _ _
      rintro rfl
      exact hp (List.mem_of_getLast? hlast)

/-- Nor does the other list. -/
theorem Built.store_other (h : Built s t l) (h' : Built s t' l') (hne : t' ≠ t)
    (hapart : ∀ p, p ∈ l' → p ∉ l) : Built (s.store (s.tp t) v) t' l' where
  visits := by
    have hhead : (s.store (s.tp t) v).head t' = s.head t' := by
      have hptr := h.ptr
      unfold lastPtr at hptr
      cases hlast : l.getLast? with
      | none =>
          rw [hlast] at hptr
          rw [hptr]
          cases t <;> cases t' <;> first | rfl | exact absurd rfl hne
      | some b =>
          rw [hlast] at hptr
          rw [hptr]
          rfl
    rw [hhead]
    exact h'.visits.congr (fun p hp => h.store_links (hapart p hp))
  ptr := by
    rw [store_tp]
    exact h'.ptr

theorem mem_part : p ∈ part t l ↔ p ∈ l ∧ pagetype p = t := by
  unfold part
  rw [List.mem_filter, decide_eq_true_iff]

/-- A page is on one of the lists only. -/
theorem part_apart (hne : t' ≠ t) (hp : p ∈ part t' l) : p ∉ part t l := by
  intro hp'
  exact hne ((mem_part.mp hp).2.symm.trans (mem_part.mp hp').2)

/-- One turn of the loop. -/
theorem Parted.turn (h : Parted m done (p :: rest) s) :
    Parted m (done ++ [p]) rest (s.turn p) := by
  have hnodup := h.nodup
  have hdone : p ∉ done := fun hp => List.disjoint_of_nodup_append hnodup hp List.mem_cons_self
  have hrest : ∀ q, q ∈ rest → q ∉ done := fun q hq hq' =>
    List.disjoint_of_nodup_append hnodup hq' (List.mem_cons_of_mem p hq)
  have hbuilt := h.built (pagetype p)
  have hkept : ∀ q, q ∉ done →
      links (s.store (s.tp (pagetype p)) (some p)).vm q = links s.vm q :=
    fun q hq => hbuilt.store_links (fun hq' => hq (mem_part.mp hq').1)
  refine ⟨?_, fun t => ?_, ?_, fun q hq => ?_, fun q => ?_, store_books _ h.books⟩
  · have hpp : (s.turn p).pp = links s.vm p := hkept p hdone
    rw [hpp]
    exact h.pp.2.congr (fun q hq => hkept q (hrest q hq))
  · by_cases ht : t = pagetype p
    · subst ht
      have hpart : part (pagetype p) (done ++ [p]) = part (pagetype p) done ++ [p] := by
        unfold part
        rw [List.filter_append, List.filter_singleton, decide_eq_true rfl]
        rfl
      obtain ⟨hvisits, hafter⟩ := hbuilt.store (v := some p)
        ((List.nodup_append.mp hnodup).1.filter _)
      rw [hpart]
      refine ⟨hvisits.push hafter, ?_⟩
      unfold lastPtr
      rw [List.getLast?_concat]
      exact Function.update_self ..
    · have hpart : part t (done ++ [p]) = part t done := by
        unfold part
        rw [List.filter_append, List.filter_singleton, decide_eq_false (Ne.symm ht)]
        exact List.append_nil _
      have hother := hbuilt.store_other (v := some p) (h.built t) ht (fun _ hq => part_apart ht hq)
      rw [hpart]
      refine ⟨hother.visits, ?_⟩
      rw [← hother.ptr]
      exact Function.update_of_ne ht _ _
  · rw [List.append_assoc]
    exact hnodup
  · rw [List.mem_append, List.mem_singleton, not_or] at hq
    exact (hkept q hq.1).trans (h.outside q hq.1)
  · exact (store_ref _).trans (h.ref q)

/-- Whatever the loop comes to, it has put all pages on the two lists. -/
theorem Parted.loop {fuel : Nat} {s' : Reordering} (h : Parted m done rest s)
    (hloop : loop fuel s = some s') : Parted m (done ++ rest) [] s' := by
  induction fuel generalizing done rest s with
  | zero => cases hloop
  | succ fuel ih =>
      have hpp := h.pp
      unfold loop at hloop
      cases rest with
      | nil =>
          rw [chain_nil.mp hpp] at hloop
          obtain rfl := Option.some.inj hloop
          rw [List.append_nil]
          exact h
      | cons p rest =>
          rw [hpp.1] at hloop
          have hrest := ih h.turn hloop
          rwa [List.append_assoc] at hrest

/-- And it comes to its end. -/
theorem Parted.loop_ends {fuel : Nat} (h : Parted m done rest s) (hfuel : rest.length < fuel) :
    ∃ s', Reordering.loop fuel s = some s' := by
  induction fuel generalizing done rest s with
  | zero => exact absurd hfuel (Nat.not_lt_zero _)
  | succ fuel ih =>
      have hpp := h.pp
      unfold Reordering.loop
      cases rest with
      | nil =>
          rw [chain_nil.mp hpp]
          exact ⟨s, rfl⟩
      | cons p rest =>
          rw [hpp.1]
          rw [List.length_cons] at hfuel
          exact ih h.turn (by omega)

/-- Behind the loop, the pages of the second list follow those of the first. -/
theorem Parted.join (h : Parted m done [] s) :
    Chain (links s.join) s.join.pageFreeList (part false done ++ part true done) := by
  have hnodup : done.Nodup := (List.nodup_append.mp h.nodup).1
  have hlow := (h.built true).store_other (v := none) (h.built false) Bool.false_ne_true
    (fun _ hq => part_apart Bool.false_ne_true hq)
  obtain ⟨hhigh, hend⟩ := (h.built true).store (v := none) (hnodup.filter _)
  let s₁ := s.store (s.tp true) none
  -- the second list ends, and so it does once the first one goes on with it
  have hsecond : Chain (links s₁.vm) s₁.pp2 (part true done ++ []) := hhigh.chain hend
  rw [List.append_nil] at hsecond
  obtain ⟨hfirst, hgoesOn⟩ := hlow.store (v := s₁.pp2) (hnodup.filter _)
  refine hfirst.chain ?_
  rw [hgoesOn]
  exact hsecond.congr (fun q hq => hlow.store_links (part_apart Bool.false_ne_true.symm hq))

theorem join_books (h : m.BooksOnly s.vm) : m.BooksOnly s.join := by
  obtain ⟨hmem, hn, hdir, haddr, hcr3, htlb⟩ :=
    store_books ((s.store (s.tp true) none).tp false)
      (v := (s.store (s.tp true) none).pp2) (store_books (s.tp true) (v := none) h)
  exact ⟨hmem, hn, hdir, haddr, hcr3, htlb⟩

theorem join_ref : (s.join.pages p).ppRef = (s.vm.pages p).ppRef :=
  (store_ref _).trans (store_ref _)

/-- Before the loop both lists are empty, whatever their heads are. -/
theorem Parted.start (h : Chain (links m) m.pageFreeList l) (pp1 pp2 : Option Nat) :
    Parted m [] l ⟨m, m.pageFreeList, pp1, pp2, fun t => if t then .pp2 else .pp1⟩ where
  pp := h
  built _ := ⟨visits_nil, rfl⟩
  nodup := h.nodup
  outside _ _ := rfl
  ref _ := rfl
  books := ⟨rfl, rfl, rfl, rfl, rfl, rfl⟩

end Stores

/-- The two lists, one behind the other. -/
theorem lowFirst_parts (l : List Nat) : LowFirst l (part false l ++ part true l) := by
  have hfalse : part false l = l.filter (fun p => LowPage p) := by
    unfold part
    refine List.filter_congr (fun p _ => ?_)
    rw [pagetype_eq]
    simp
  have htrue : part true l = l.filter (fun p => ¬ LowPage p) := by
    unfold part
    refine List.filter_congr (fun p _ => ?_)
    rw [pagetype_eq]
    simp
  rw [hfalse, htrue]
  refine ⟨?_, ?_, ?_, ?_⟩
  · simpa using List.filter_append_perm (fun p => decide (LowPage p)) l
  · refine List.pairwise_append.mpr ⟨?_, ?_, fun p hp q _ _ => ?_⟩
    · refine List.pairwise_of_forall_mem_list (fun p hp q _ _ => ?_)
      simpa using (List.mem_filter.mp hp).2
    · refine List.pairwise_of_forall_mem_list (fun p _ q hq hlow => ?_)
      exact absurd hlow (by simpa using (List.mem_filter.mp hq).2)
    · simpa using (List.mem_filter.mp hp).2
  · rw [List.filter_append, List.filter_filter, List.filter_filter]
    simp
  · rw [List.filter_append, List.filter_filter, List.filter_filter]
    simp

end Reordering

/-! ## The reordered list -/

/-- The free list is `l'`, and nothing has changed but the links. -/
structure Relinked (m : PhysMem) (l' : List Nat) (m' : PhysMem) : Prop where
  chain : Chain (links m') m'.pageFreeList l'
  ref : ∀ p, (m'.pages p).ppRef = (m.pages p).ppRef
  books : m.BooksOnly m'

section Reordered

variable {m m' : PhysMem} {l l' : List Nat} {p fuel : Nat} {pp1 pp2 : Option Nat}

theorem reorder_returns (h : Chain (links m) m.pageFreeList l) (hfuel : l.length < fuel)
    (pp1 pp2 : Option Nat) :
    ∃ m', (reorder fuel pp1 pp2).run m = .ret () m' ∧
      Relinked m (Reordering.part false l ++ Reordering.part true l) m' := by
  have hstart := Reordering.Parted.start h pp1 pp2
  obtain ⟨s, hloop⟩ := hstart.loop_ends hfuel
  have hend := hstart.loop hloop
  rw [List.nil_append] at hend
  refine ⟨s.join, ?_, hend.join, fun p => ?_, Reordering.join_books hend.books⟩
  · unfold reorder
    rw [Prog.run_bind, Prog.run_get]
    dsimp only
    rw [hloop]
    rfl
  · exact Reordering.join_ref.trans (hend.ref p)

/-! ## The pages that `page_alloc` returns -/

/-- `page_alloc` takes the first page of the list. -/
theorem pageAlloc_first {allocZero : Bool} (h : Chain (links m) m.pageFreeList (p :: l))
    (hp : p < m.npages) :
    ∃ m', (pageAlloc allocZero).run m = .ret (some p) m' ∧
      Chain (links m') m'.pageFreeList l ∧ m'.npages = m.npages := by
  have hpop := PhysMem.popFree_chain h
  cases allocZero with
  | false => exact ⟨m.popFree p, pageAlloc_plain h.1, hpop, rfl⟩
  | true => exact ⟨_, pageAlloc_cleared h.1 hp, hpop, rfl⟩

theorem allocatesInOrder (h : Chain (links m) m.pageFreeList l)
    (hl : ∀ p, p ∈ l → p < m.npages) : AllocatesInOrder m l := by
  intro flags
  induction flags generalizing m l with
  | nil => exact ⟨m, rfl⟩
  | cons allocZero flags ih =>
      unfold pageAllocs
      cases l with
      | nil =>
          obtain ⟨m', hrest⟩ := ih h hl
          refine ⟨m', ?_⟩
          rw [Prog.run_bind_ret (pageAlloc_empty h), Prog.run_bind_ret hrest]
          simp [List.replicate_succ]
      | cons p l =>
          obtain ⟨m₁, hfirst, hchain, hn⟩ := pageAlloc_first h (hl p List.mem_cons_self)
          obtain ⟨m', hrest⟩ := ih hchain (fun q hq => hn.symm ▸ hl q (List.mem_cons_of_mem p hq))
          -- the last null that is written down is not looked at
          have hnull : (l.map some ++ List.replicate (flags.length + 1) none).take flags.length =
              (l.map some ++ List.replicate flags.length none).take flags.length := by
            rw [List.replicate_succ', ← List.append_assoc]
            exact List.take_append_of_le_length (by simp)
          refine ⟨m', ?_⟩
          rw [Prog.run_bind_ret hfirst, Prog.run_bind_ret hrest, List.length_cons, List.map_cons,
            List.cons_append, List.take_succ_cons, hnull]
          rfl

/-! ## The walks behind the reordering -/

/-- A walk over the list, whose body keeps the links. -/
theorem wp_forFreePages {α : Type} {body : α → Nat → Prog PhysMem α} {next : Nat → Option Nat}
    {J : PhysMem → Prop} {Q : Nat → Prop} {head : Option Nat} {a : α}
    (hlinks : ∀ m, J m → links m = next)
    (hbody : ∀ a p m, p ∈ l → J m →
      wp (body a p) (Partial (fun _ m' => J m' ∧ Q p) (fun _ => True)) m)
    (h : Chain next head l) (hJ : J m) :
    wp (forFreePages body fuel head a)
      (Partial (fun _ m' => J m' ∧ ∀ p, p ∈ l → Q p) (fun _ => True)) m := by
  induction fuel generalizing head l a m with
  | zero => trivial
  | succ fuel ih =>
      cases l with
      | nil =>
          rw [chain_nil.mp h]
          exact ⟨hJ, fun p hp => absurd hp List.not_mem_nil⟩
      | cons p l =>
          obtain ⟨rfl, hrest⟩ := h
          unfold forFreePages
          rw [wp_bind]
          refine wp_mono (hbody a p m List.mem_cons_self hJ) (fun a' m' hm' => ?_)
            (fun _ h => h) (fun _ h => h)
          obtain ⟨hJ', hQ⟩ := hm'
          have hnext : (m'.pages p).ppLink = next p := congrFun (hlinks m' hJ') p
          refine wp_get_bind.mpr ?_
          rw [hnext]
          refine wp_mono (ih (fun a q m hq => hbody a q m (List.mem_cons_of_mem p hq)) hrest hJ')
            (fun _ m'' hm'' => ⟨hm''.1, fun q hq => ?_⟩) (fun _ h => h) (fun _ h => h)
          rcases List.mem_cons.mp hq with rfl | hq
          · exact hQ
          · exact hm''.2 q hq

/-- Nothing has changed but what is stored in the pages of the list. -/
structure Poisoned (m : PhysMem) (l : List Nat) (m' : PhysMem) : Prop where
  pages : m'.pages = m.pages
  pageFreeList : m'.pageFreeList = m.pageFreeList
  npages : m'.npages = m.npages
  kernPgdir : m'.kernPgdir = m.kernPgdir
  mem : ∀ q, (∀ p, p ∈ l → q ≠ pgnum (page2pa p)) → m'.mem q = m.mem q

theorem Poisoned.chain (hp : Poisoned m l m') (h : Chain (links m) m.pageFreeList l') :
    Chain (links m') m'.pageFreeList l' := by
  unfold links
  rw [hp.pages, hp.pageFreeList]
  exact h

theorem poisonPage_poisons {limit : Nat} (hp : p ∈ l) (h : Poisoned m l m') :
    wp (poisonPage limit p) (Partial (fun _ m'' => Poisoned m l m'' ∧ True) (fun _ => True))
      m' := by
  unfold poisonPage
  refine wp_when (fun _ => ?_) (fun _ => ⟨h, trivial⟩)
  rw [wp_bind]
  unfold page2kva kaddr
  rw [wp_get_bind]
  refine wp_ite (fun _ => trivial) (fun _ => ⟨⟨h.pages, h.pageFreeList, h.npages, h.kernPgdir,
    fun q hq => ?_⟩, trivial⟩)
  refine Eq.trans ?_ (h.mem q hq)
  simp [PhysMem.setPage, hq p hp]

/-- A page is on the list for good only if it is one of the array. -/
theorem checkFreePage_checks {firstFreePage : U32} {nfree : Nat × Nat} :
    wp (checkFreePage firstFreePage nfree p)
      (Partial (fun _ m' => m' = m ∧ p < m.npages) (fun _ => True)) m := by
  unfold checkFreePage
  refine wp_get_bind.mpr (wp_when_stop (fun hp => ?_))
  have hinside : p < m.npages := Nat.lt_of_not_le hp
  dsimp only
  generalize page2pa p = pa
  -- the page is none of those that the kernel keeps
  refine wp_when_stop (fun _ => wp_when_stop (fun _ => ?_))
  refine wp_when_stop (fun _ => wp_when_stop (fun _ => ?_))
  rw [wp_bind]
  refine wp_when (fun _ => ?_) (fun _ => wp_when_stop (fun _ => ⟨rfl, hinside⟩))
  -- in extended memory it is behind the kernel
  rw [wp_bind]
  unfold page2kva kaddr
  refine wp_get_bind.mpr (wp_ite (fun _ => trivial) (fun _ => ?_))
  exact wp_when (fun _ => trivial) (fun _ => wp_when_stop (fun _ => ⟨rfl, hinside⟩))

variable {b : BootInfo} {s s' : BootState} {onlyLowMemory : Bool}

/-- What comes behind the reordering leaves the list as it is. -/
theorem checkPageFreeList_ret
    (hreorder : (Prog.when (onlyLowMemory = true) (onBoot (reorder fuel pp1 pp2))).run s =
      .ret () { s with vm := m })
    (h : Chain (links m) m.pageFreeList l)
    (hrun : (checkPageFreeList b fuel pp1 pp2 onlyLowMemory).run s = .ret () s') :
    Poisoned m l s'.vm ∧ ∀ p, p ∈ l → p < m.npages := by
  have hwp : wp (checkPageFreeList b fuel pp1 pp2 onlyLowMemory) (Partial (fun _ s' =>
      Poisoned m l s'.vm ∧ ∀ p, p ∈ l → p < m.npages) (fun _ => True)) s := by
    unfold checkPageFreeList
    refine wp_get_bind.mpr (wp_when_stop (fun _ => wp_ret_bind hreorder (wp_get_bind.mpr ?_)))
    rw [wp_bind]
    refine (wp_zoom _ _ _).mpr (wp_mono (wp_forFreePages (J := Poisoned m l) (Q := fun _ => True)
      (fun m' h' => congrArg (fun pages p => PageInfo.ppLink (pages p)) h'.pages)
      (fun _ _ _ hp h' => poisonPage_poisons hp h') h ⟨rfl, rfl, rfl, rfl, fun _ _ => rfl⟩)
      (fun _ m' hm' => ?_) (fun _ h => h) (fun _ h => h))
    obtain ⟨hpoisoned, -⟩ := hm'
    have hchain := hpoisoned.chain h
    refine bootAlloc_bind rfl (wp_get_bind.mpr ?_)
    rw [wp_bind]
    refine (wp_zoom _ _ _).mpr (wp_mono (wp_forFreePages (J := fun m'' => m'' = m')
      (Q := fun p => p < m.npages) (fun _ h' => congrArg links h')
      (fun _ _ _ _ h' => ?_) hchain rfl)
      (fun _ m'' hm'' => ?_) (fun _ h => h) (fun _ h => h))
    · subst h'
      rw [← hpoisoned.npages]
      exact checkFreePage_checks
    · obtain ⟨rfl, hinside⟩ := hm''
      exact wp_when_stop (fun _ => wp_when (fun _ => trivial) (fun _ => ⟨hpoisoned, hinside⟩))
  exact wp_ret hwp hrun

/-! ## `check_page_free_list` as a whole -/

/-- The order in which the free pages are left. -/
def freeOrder (onlyLowMemory : Bool) (l : List Nat) : List Nat :=
  if onlyLowMemory then Reordering.part false l ++ Reordering.part true l else l

theorem freeOrder_perm : (freeOrder onlyLowMemory l).Perm l := by
  cases onlyLowMemory with
  | false => exact List.Perm.refl l
  | true => exact (Reordering.lowFirst_parts l).perm

/-- The step that is taken for `only_low_memory` alone. -/
theorem reordered (h : Chain (links s.vm) s.vm.pageFreeList l) (hfuel : l.length < fuel) :
    ∃ m, (Prog.when (onlyLowMemory = true) (onBoot (reorder fuel pp1 pp2))).run s =
      .ret () { s with vm := m } ∧ Relinked s.vm (freeOrder onlyLowMemory l) m := by
  cases onlyLowMemory with
  | false => exact ⟨s.vm, rfl, h, fun _ => rfl, rfl, rfl, rfl, rfl, rfl, rfl⟩
  | true =>
      obtain ⟨m, hrun, hrelinked⟩ := reorder_returns h hfuel pp1 pp2
      exact ⟨m, Prog.run_zoom_ret hrun, hrelinked⟩

/-- `check_page_free_list` is one of the self-checks that `mem_init` makes. -/
theorem checkPageFreeList_selfChecked (h : Chain (links s.vm) s.vm.pageFreeList l)
    (hfuel : l.length < fuel) (hn : s.vm.npages ≤ 2 ^ 20)
    (hrun : (checkPageFreeList b fuel pp1 pp2 onlyLowMemory).run s = .ret () s') :
    SelfChecked s.vm s'.vm := by
  obtain ⟨m, hreorder, hrelinked⟩ := reordered h hfuel
  obtain ⟨hpoisoned, hinside⟩ := checkPageFreeList_ret hreorder hrelinked.chain hrun
  refine ⟨hpoisoned.npages.trans hrelinked.books.npages,
    hpoisoned.kernPgdir.trans hrelinked.books.kernPgdir, fun p => ?_, fun free hfree => ?_⟩
  · rw [hpoisoned.pages]
    exact hrelinked.ref p
  · obtain rfl : free = l := hfree.unique h
    refine ⟨freeOrder onlyLowMemory free, freeOrder_perm, hpoisoned.chain hrelinked.chain,
      fun q hq => ?_⟩
    refine (hpoisoned.mem q (fun p hp => ?_)).trans (congrFun hrelinked.books.mem q)
    have hlt := hinside p hp
    rw [hrelinked.books.npages] at hlt
    rw [pgnum_page2pa (by omega)]
    rintro rfl
    exact hq (freeOrder_perm.mem_iff.mp hp)

/-- The reordering ends and leaves a list that ends.  It has the same pages, those below 4 MiB
before all others, and both groups in the order they had, so that `page_alloc` returns the pages
below 4 MiB first; and this is the order when `check_page_free_list(1)` is done. -/
theorem check_page_free_list_reorders (h : Chain (links s.vm) s.vm.pageFreeList l)
    (hfuel : l.length < fuel) (b : BootInfo) (pp1 pp2 : Option Nat) :
    ∃ m' l', (reorder fuel pp1 pp2).run s.vm = .ret () m' ∧
      Chain (links m') m'.pageFreeList l' ∧ LowFirst l l' ∧
      ((∀ p, p ∈ l → p < s.vm.npages) → AllocatesInOrder m' l') ∧
      ∀ s', (checkPageFreeList b fuel pp1 pp2 true).run s = .ret () s' →
        Chain (links s'.vm) s'.vm.pageFreeList l' ∧ AllocatesInOrder s'.vm l' := by
  obtain ⟨m', hrun, hrelinked⟩ := reorder_returns h hfuel pp1 pp2
  have horder := Reordering.lowFirst_parts l
  refine ⟨m', _, hrun, hrelinked.chain, horder, fun hl => ?_, fun s' hcheck => ?_⟩
  · refine allocatesInOrder hrelinked.chain (fun p hp => ?_)
    rw [hrelinked.books.npages]
    exact hl p (horder.perm.mem_iff.mp hp)
  · have hreorder : (Prog.when (true = true) (onBoot (reorder fuel pp1 pp2))).run s =
        .ret () { s with vm := m' } := Prog.run_zoom_ret hrun
    obtain ⟨hpoisoned, hinside⟩ := checkPageFreeList_ret hreorder hrelinked.chain hcheck
    have hchain := hpoisoned.chain hrelinked.chain
    refine ⟨hchain, allocatesInOrder hchain (fun p hp => ?_)⟩
    rw [hpoisoned.npages]
    exact hinside p hp

end Reordered

/-- A machine with four free pages, two of which are above 4 MiB. -/
def mixedFree : BootState :=
  { smallBoot.bootState with
    vm := { smallBoot.bootState.vm with
      pages := fun p =>
        { ppLink :=
            if p = 1030 then some 1 else if p = 1 then some 1025
            else if p = 1025 then some 2 else none
          ppRef := 0#16 }
      pageFreeList := some 1030 } }

example : freeOrder true [1030, 1, 1025, 2] = [1, 2, 1030, 1025] := by decide

theorem check_page_free_list_reorders_mixed :
    ∃ s' l', (checkPageFreeList smallBoot 5 none none true).run mixedFree = .ret () s' ∧
      LowFirst [1030, 1, 1025, 2] l' ∧ Chain (links s'.vm) s'.vm.pageFreeList l' ∧
      AllocatesInOrder s'.vm l' := by
  have hchain : Chain (links mixedFree.vm) mixedFree.vm.pageFreeList [1030, 1, 1025, 2] := by
    decide
  have hfuel : [1030, 1, 1025, 2].length < 5 := by decide
  obtain ⟨m', l', -, -, horder, -, hdone⟩ :=
    check_page_free_list_reorders hchain hfuel smallBoot none none
  obtain ⟨s', hrun⟩ :
      ∃ s', (checkPageFreeList smallBoot 5 none none true).run mixedFree = .ret () s' :=
    ⟨_, rfl⟩
  obtain ⟨hlist, halloc⟩ := hdone s' hrun
  exact ⟨s', l', hrun, horder, hlist, halloc⟩

end Jos

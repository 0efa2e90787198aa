import Jos.PageAccounting

/-!
# Freeing a page twice

`page_free` takes a page for free already when its `pp_link` is not NULL.
Every page of the list has such a link except the last one, so the last page
can be put on the list again, which makes the list a cycle.  In a run that
does not free the last page of the list, no page is freed twice, the list
ends, and a page is handed out again only after it has been freed.
-/

namespace Jos

open Programs LinkedList

/-- The page is met by following `page_free_list`. -/
def Listed (m : PhysMem) (p : Nat) : Prop :=
  Met (fun q => (m.pages q).ppLink) m.pageFreeList p

/-- The page is the last one of `page_free_list`. -/
def LastFree (m : PhysMem) (p : Nat) : Prop :=
  Listed m p ∧ (m.pages p).ppLink = none

/-- `page_free_list` ends, and only its pages have a link. -/
def FreeListMade (m : PhysMem) : Prop :=
  ∃ l, Chain (fun q => (m.pages q).ppLink) m.pageFreeList l ∧
    ∀ p, p ∉ l → (m.pages p).ppLink = none

/-- A call that returned. -/
inductive PageEvent where
  | alloc (r : Option Nat)
  | free (p : Nat)
deriving DecidableEq

/-- Calls that returned, the latest one first.  Every call of `page_free` is
for a page with `pp_ref` 0 that meets the condition. -/
inductive PageRun (ok : PhysMem → Nat → Prop) (m₀ : PhysMem) :
    List PageEvent → PhysMem → Prop where
  | start : PageRun ok m₀ [] m₀
  | alloc {tr : List PageEvent} {m m' : PhysMem} {r : Option Nat} (zero : Bool)
      (h : PageRun ok m₀ tr m) (hrun : (pageAlloc zero).run m = .ret r m') :
      PageRun ok m₀ (.alloc r :: tr) m'
  | free {tr : List PageEvent} {m m' : PhysMem} {p : Nat}
      (h : PageRun ok m₀ tr m) (href : (m.pages p).ppRef = 0#16) (hok : ok m p)
      (hrun : (pageFree p).run m = .ret () m') :
      PageRun ok m₀ (.free p :: tr) m'

/-- A page is handed out again only after it has been freed. -/
def GivenOnce (tr : List PageEvent) : Prop :=
  ∀ after between before p,
    tr = after ++ .alloc (some p) :: (between ++ .alloc (some p) :: before) →
      .free p ∈ between

/-- The page has been handed out and not been freed since. -/
def HandedOut (tr : List PageEvent) (p : Nat) : Prop :=
  ∃ after before, tr = after ++ .alloc (some p) :: before ∧ .free p ∉ after

/-! ## Runs -/

section Runs

variable {m₀ m m' : PhysMem} {tr : List PageEvent} {e : PageEvent} {p : Nat}

theorem HandedOut.of_cons (h : HandedOut (e :: tr) p) :
    e = .alloc (some p) ∨ (e ≠ .free p ∧ HandedOut tr p) := by
  obtain ⟨after, before, heq, hfree⟩ := h
  cases after with
  | nil => exact Or.inl (List.cons.inj heq).1
  | cons e' after =>
      obtain ⟨rfl, htail⟩ := List.cons.inj heq
      rw [List.mem_cons, not_or] at hfree
      exact Or.inr ⟨fun h => hfree.1 h.symm, after, before, htail, hfree.2⟩

/-- One more call, which does not hand out a page that is out already. -/
theorem GivenOnce.cons (h : GivenOnce tr) (hnew : ∀ p, e = .alloc (some p) → ¬ HandedOut tr p) :
    GivenOnce (e :: tr) := by
  intro after between before p heq
  cases after with
  | nil =>
      obtain ⟨rfl, htr⟩ := List.cons.inj heq
      by_contra hfree
      exact hnew p rfl ⟨between, before, htr, hfree⟩
  | cons e' after => exact h after between before p (List.cons.inj heq).2

/-- The list has its pages, none of which is handed out. -/
structure BooksKept (tr : List PageEvent) (m : PhysMem) (l : List Nat) : Prop where
  chain : Chain (fun q => (m.pages q).ppLink) m.pageFreeList l
  unlinked : ∀ p, p ∉ l → (m.pages p).ppLink = none
  inside : ∀ p, HandedOut tr p → p ∉ l
  once : GivenOnce tr

variable {l : List Nat}

theorem BooksKept.alloc {zero : Bool} {r : Option Nat} (h : BooksKept tr m l)
    (hrun : (pageAlloc zero).run m = .ret r m') : ∃ l', BooksKept (.alloc r :: tr) m' l' := by
  rcases pageAlloc_ret hrun with ⟨rfl, rfl⟩ | ⟨p, rfl, hhead, hpages, hlist⟩
  · refine ⟨l, h.chain, h.unlinked, fun p hp => ?_, h.once.cons (fun p hp => by simp at hp)⟩
    rcases hp.of_cons with heq | ⟨-, hp⟩
    · simp at heq
    · exact h.inside p hp
  · have hchain := h.chain
    cases l with
    | nil => exact absurd (hchain.symm.trans hhead) (by simp)
    | cons q l =>
        obtain rfl : q = p := Option.some.inj (hchain.1.symm.trans hhead)
        have hnodup := List.nodup_cons.mp hchain.nodup
        refine ⟨l, ?_, fun b hb => ?_, fun b hb => ?_, h.once.cons (fun b hb => ?_)⟩
        · rw [hpages, hlist]
          exact PhysMem.popFree_chain hchain
        · rw [hpages, PhysMem.popFree_link]
          split
          · rfl
          · exact h.unlinked b (by simp_all)
        · rcases hb.of_cons with heq | ⟨-, hb⟩
          · obtain rfl : q = b := by simpa using heq
            exact hnodup.1
          · exact fun hmem => h.inside b hb (List.mem_cons_of_mem q hmem)
        · obtain rfl : q = b := by simpa using hb
          exact fun hout => h.inside q hout List.mem_cons_self

theorem BooksKept.listed_iff (h : BooksKept tr m l) : Listed m p ↔ p ∈ l :=
  h.chain.mem_iff.symm

theorem BooksKept.free (h : BooksKept tr m l) (hlast : ¬ LastFree m p)
    (hrun : (pageFree p).run m = .ret () m') : BooksKept (.free p :: tr) m' (p :: l) := by
  rw [pageFree_run] at hrun
  split at hrun
  · cases hrun
  · rename_i hzero
    obtain ⟨-, rfl⟩ := Outcome.ret.inj hrun
    have hnone : (m.pages p).ppLink = none := not_not.mp (fun hne => hzero (Or.inr hne))
    have hp : p ∉ l := fun hp => hlast ⟨h.listed_iff.mpr hp, hnone⟩
    refine ⟨?_, fun b hb => ?_, fun b hb => ?_, h.once.cons (fun b hb => by simp at hb)⟩
    · exact PhysMem.pushFree_chain h.chain hp
    · rw [List.mem_cons, not_or] at hb
      rw [PhysMem.pushFree_link, if_neg hb.1]
      exact h.unlinked b hb.2
    · rcases hb.of_cons with heq | ⟨hne, hb⟩
      · simp at heq
      · rw [List.mem_cons, not_or]
        exact ⟨fun heq => hne (by rw [heq]), h.inside b hb⟩

theorem PageRun.kept (hrun : PageRun (fun m p => ¬ LastFree m p) m₀ tr m)
    (hmade : FreeListMade m₀) : ∃ l, BooksKept tr m l := by
  induction hrun with
  | start =>
      obtain ⟨l, hchain, hnone⟩ := hmade
      refine ⟨l, hchain, hnone, fun p hp => ?_, fun after between before p heq => ?_⟩
      · obtain ⟨after, before, heq, -⟩ := hp
        simp at heq
      · simp at heq
  | alloc _ _ hrun ih =>
      obtain ⟨l, h⟩ := ih
      exact h.alloc hrun
  | free _ _ hok hrun ih =>
      obtain ⟨l, h⟩ := ih
      exact ⟨_, h.free hok hrun⟩

/-- In a run that does not free the last page of the list, the list ends and
has no page twice, no page is handed out twice without being freed, and of the
pages on the list `page_free` takes none but the last. -/
theorem free_list_kept (hrun : PageRun (fun m p => ¬ LastFree m p) m₀ tr m)
    (hmade : FreeListMade m₀) :
    (∃ l, Chain (fun q => (m.pages q).ppLink) m.pageFreeList l ∧ l.Nodup) ∧ GivenOnce tr ∧
      ∀ p, Listed m p → (m.pages p).ppRef = 0#16 →
        ((pageFree p).run m = .stop m ↔ ¬ LastFree m p) := by
  obtain ⟨l, h⟩ := hrun.kept hmade
  refine ⟨⟨l, h.chain, h.chain.nodup⟩, h.once, fun p hp href => ?_⟩
  rw [pageFree_run, LastFree]
  by_cases hnone : (m.pages p).ppLink = none
  · simp [href, hnone, hp]
  · simp [href, hnone]

/-- The free list of a machine with three pages: pages 1 and 2. -/
theorem bootMemory_made : FreeListMade (bootMemory 3) := by
  refine ⟨[1, 2], ⟨rfl, rfl, rfl⟩, fun p hp => ?_⟩
  have : ¬ (0 < p ∧ p + 1 < 3) := by
    intro h
    obtain rfl : p = 1 := by omega
    simp at hp
  simp [bootMemory, this]

/-- Page 1 is handed out, freed, and freed again in vain. -/
theorem free_list_kept_boot :
    ∃ m, PageRun (fun m p => ¬ LastFree m p) (bootMemory 3) [.free 1, .alloc (some 1)] m ∧
      (pageFree 1).run m = .stop m := by
  have hrun : PageRun (fun m p => ¬ LastFree m p) (bootMemory 3) [.free 1, .alloc (some 1)]
      (((bootMemory 3).popFree 1).pushFree 1) := by
    refine .free (.alloc false .start (pageAlloc_plain rfl)) rfl (fun h => ?_) rfl
    have hchain : Chain (fun q => (((bootMemory 3).popFree 1).pages q).ppLink)
        ((bootMemory 3).popFree 1).pageFreeList [2] := ⟨rfl, rfl⟩
    exact absurd (hchain.mem_iff.mpr h.1) (by decide)
  refine ⟨_, hrun, ?_⟩
  exact ((free_list_kept hrun bootMemory_made).2.2 1 (.head rfl) rfl).mpr
    (fun h => absurd h.2 (by decide))

/-- Page 2, the last one of the list, is freed once more: the list never ends,
and then page 2 is handed out twice. -/
theorem last_page_freed_twice : FreeListMade (bootMemory 3) ∧
    Listed (bootMemory 3) 2 ∧ ((bootMemory 3).pages 2).ppRef = 0#16 ∧
    (∃ m, PageRun (fun _ _ => True) (bootMemory 3) [.free 2] m ∧
      ¬ ∃ l, Chain (fun q => (m.pages q).ppLink) m.pageFreeList l) ∧
    ∃ tr m, PageRun (fun _ _ => True) (bootMemory 3) tr m ∧ ¬ GivenOnce tr := by
  have hfree : PageRun (fun _ _ => True) (bootMemory 3) [.free 2]
      ((bootMemory 3).pushFree 2) := .free .start rfl trivial rfl
  refine ⟨bootMemory_made, .next (.head rfl) rfl, rfl, ⟨_, hfree, ?_⟩,
    [.alloc (some 2), .alloc (some 1), .alloc (some 2), .free 2], _,
    .alloc false (.alloc false (.alloc false hfree
      (pageAlloc_plain rfl)) (pageAlloc_plain rfl)) (pageAlloc_plain rfl), fun h => ?_⟩
  · rintro ⟨l, hl⟩
    have hnodup := hl.nodup
    -- the walk from page 2 is at page 2 again two links later
    rcases l with _ | ⟨a, _ | ⟨b, _ | ⟨c, l⟩⟩⟩
    · exact absurd hl (by decide)
    · obtain ⟨ha, hl⟩ := hl
      obtain rfl := Option.some.inj ha
      exact absurd hl (by decide)
    · obtain ⟨ha, hb, hl⟩ := hl
      obtain rfl := Option.some.inj ha
      obtain rfl := Option.some.inj hb
      exact absurd hl (by decide)
    · obtain ⟨ha, hb, hc, hl⟩ := hl
      obtain rfl := Option.some.inj ha
      obtain rfl := Option.some.inj hb
      obtain rfl := Option.some.inj hc
      simp at hnodup
  · have := h [] [.alloc (some 1)] [.free 2] 2 rfl
    simp at this

end Runs

end Jos

import Jos.Fork

/-!
# A run of `fork`

What is true between two steps of `fork`: which pages the child has already
(`Filled`), and what has become of the pages of the parent (`Forking`).  The two
results of `sys_page_map` that `duppage` does not look at leave pages out.
-/

namespace Jos.User.Fork

open Programs

/-! ## While `fork` runs -/

/-- The entry of a page that is marked copy-on-write. -/
def cowPte (p : Nat) : UserPte := ⟨p, pteCow ||| pteU ||| pteP⟩

/-- The entry that `duppage` leaves in the parent. -/
def marked (w : UserPte) : UserPte :=
  if HasFlag w.perm pteShare then w
  else if HasFlag w.perm pteW ∨ HasFlag w.perm pteCow then cowPte w.page
  else w

/-- The entry of the stack: as it was, or what `duppage` has made of it, or a copy. -/
def StackPte (g : Setting) (c₀ : Caller) (w₀ : UserPte) (v : Nat) (w : UserPte) : Prop :=
  (v ≤ g.stack ∧ w = w₀) ∨ (g.stack < v ∧ (w = marked w₀ ∨
    ¬ HasFlag w₀.perm pteShare ∧ ∃ p, c₀.fresh ≤ p ∧ w = copyPte p))

/-- The mappings below `USTACKTOP` are those of `c₀` from page number `v` on, and what
`duppage` leaves of them before.  All that has changed in the pages of `c₀` is the stack
below the stack pointer; the page of the stack, and that at `PFTEMP`, may have been
replaced. -/
structure Forking (g : Setting) (c₀ : Caller) (w₀ : UserPte) (v : Nat) (c : Caller) : Prop where
  write : HasFlag w₀.perm pteW
  own : ∀ u, v ≤ u → u < stackPages → c.own.entry u = c₀.own.entry u
  done : ∀ u < v, u ≠ g.stack → u ≠ pftempPage →
    c.own.entry u = (c₀.own.entry u).map marked
  stack : ∃ w, c.own.entry g.stack = some w ∧ w.page < c.fresh ∧ StackPte g c₀ w₀ v w ∧
    ∀ o, g.esp ≤ o → c.bytes w.page o = c₀.bytes w₀.page o
  bytes : ∀ p < c₀.fresh, ∀ o, ¬ (p = w₀.page ∧ o < g.esp) → c.bytes p o = c₀.bytes p o
  fresh : c₀.fresh ≤ c.fresh
  memory : c.memory = c₀.memory
  asked : c₀.asked ≤ c.asked

/-- Nothing has happened to the child, and no memory was refused. -/
structure Quiet (c c' : Caller) : Prop where
  child : c'.child = c.child
  asked : c.asked ≤ c'.asked
  given : ¬ Refused c.memory c.asked c'.asked

/-- What `fork` promises when it returns or panics: it only panics if there is no
environment or no memory. -/
def orRefused {α : Type} (g : Setting) (c₀ : Caller) (R : α → Forker → Prop) : Post Forker α :=
  ⟨R, fun _ => False, fun _ => g.slot = none ∨ ∃ n, c₀.memory n = false⟩

section Pushing

variable {g : Setting} {c₀ c c' : Caller} {w₀ w : UserPte} {v : Nat} {s : Forker}

theorem marked_page : (marked w).page = w.page := by
  unfold marked
  split
  · rfl
  · split
    · rfl
    · rfl

theorem copyPte_write {p : Nat} : HasFlag (copyPte p).perm pteW := by
  change HasFlag (pteU ||| pteP ||| pteW) pteW
  decide

theorem cowPte_cow {p : Nat} : HasFlag (cowPte p).perm pteCow := by
  change HasFlag (pteCow ||| pteU ||| pteP) pteCow
  decide

theorem StackPte.page (h : StackPte g c₀ w₀ v w) : w.page = w₀.page ∨ c₀.fresh ≤ w.page := by
  rcases h with ⟨-, rfl⟩ | ⟨-, rfl | ⟨-, p, hp, rfl⟩⟩
  · exact Or.inl rfl
  · exact Or.inl marked_page
  · exact Or.inr hp

/-- The stack may be written unless `fork` has marked it. -/
theorem StackPte.cow (h : StackPte g c₀ w₀ v w) (hwrite : HasFlag w₀.perm pteW)
    (hread : ¬ HasFlag w.perm pteW) :
    HasFlag w.perm pteCow ∧ g.stack < v ∧ ¬ HasFlag w₀.perm pteShare := by
  rcases h with ⟨-, rfl⟩ | ⟨hlt, rfl | ⟨-, p, -, rfl⟩⟩
  · exact absurd hwrite hread
  · by_cases hshare : HasFlag w₀.perm pteShare
    · unfold marked at hread
      rw [if_pos hshare] at hread
      exact absurd hwrite hread
    · unfold marked
      rw [if_neg hshare, if_pos (Or.inl hwrite)]
      exact ⟨cowPte_cow, hlt, hshare⟩
  · exact absurd copyPte_write hread

/-- A store below the stack pointer. -/
theorem Forking.store (h : Forking g c₀ w₀ v c) (n : Nat) (hw : c.own.entry g.stack = some w) :
    Forking g c₀ w₀ v { c with
      bytes := Function.update c.bytes w.page (pushed g n (c.bytes w.page)) } := by
  obtain ⟨w', hw', hused, hpte, hsame⟩ := h.stack
  obtain rfl : w' = w := Option.some.inj (hw'.symm.trans hw)
  refine ⟨h.write, h.own, h.done, ⟨w', hw, hused, hpte, fun o ho => ?_⟩, fun p hp o ho => ?_,
    h.fresh, h.memory, h.asked⟩
  · dsimp only
    rw [Function.update_self]
    unfold pushed
    rw [if_neg (Nat.not_lt.mpr ho)]
    exact hsame o ho
  · dsimp only
    by_cases heq : p = w'.page
    · subst heq
      rw [Function.update_self]
      unfold pushed
      rw [if_neg (fun hlt => ho ⟨hpte.page.resolve_right (Nat.not_le.mpr hp), hlt⟩)]
      exact h.bytes _ hp o ho
    · rw [Function.update_of_ne heq]
      exact h.bytes p hp o ho

/-- A copy of the stack. -/
theorem Forking.copy (h : Forking g c₀ w₀ v c) (hw : c.own.entry g.stack = some w)
    (hc : Copied g.stack w c c') (hv : g.stack < v) (hshare : ¬ HasFlag w₀.perm pteShare) :
    Forking g c₀ w₀ v c' where
  write := h.write
  own := fun u hu hlt => by
    have htemp : u ≠ pftempPage := by
      have := g.stack_lo
      omega
    rw [hc.entry, Function.update_of_ne htemp, Function.update_of_ne (by omega)]
    exact h.own u hu hlt
  done := fun u hu hne htemp => by
    rw [hc.entry, Function.update_of_ne htemp, Function.update_of_ne hne]
    exact h.done u hu hne htemp
  stack := by
    obtain ⟨w', hw', hused, -, hsame⟩ := h.stack
    obtain rfl : w' = w := Option.some.inj (hw'.symm.trans hw)
    refine ⟨copyPte c.fresh, ?_, ?_, Or.inr ⟨hv, Or.inr ⟨hshare, c.fresh, h.fresh, rfl⟩⟩,
      fun o ho => ?_⟩
    · rw [hc.entry, Function.update_of_ne (Nat.ne_of_gt g.stack_lo), Function.update_self]
    · rw [hc.fresh]
      exact Nat.lt_succ_self _
    · exact (congrFun (hc.copy (Nat.ne_of_gt g.stack_lo) hused) o).trans (hsame o ho)
  bytes := fun p hp o ho => by
    rw [hc.bytes p (Nat.ne_of_lt (Nat.lt_of_lt_of_le hp h.fresh))]
    exact h.bytes p hp o ho
  fresh := h.fresh.trans (hc.fresh ▸ Nat.le_succ _)
  memory := hc.memory.trans h.memory
  asked := h.asked.trans hc.asked

theorem storeFrame_returns (h : Forking g c₀ w₀ v s.caller)
    (hw : s.caller.own.entry g.stack = some w) (hwrite : HasFlag w.perm pteW) :
    Returns (storeFrame g) (fun _ s' => Forking g c₀ w₀ v s'.caller ∧
      Quiet s.caller s'.caller) s := by
  unfold storeFrame
  rw [Returns, wp_get_bind, hw]
  dsimp only
  rw [if_pos hwrite, wp_modify]
  exact ⟨h.store s.pushes hw, rfl, Nat.le_refl _, not_refused_self⟩

/-- A push may fault, and the copy that is then made may need memory. -/
theorem push_wp (h : Forking g c₀ w₀ v s.caller) :
    wp (push g) (orRefused g c₀ (fun _ s' =>
      Forking g c₀ w₀ v s'.caller ∧ Quiet s.caller s'.caller)) s := by
  obtain ⟨w, hw, -, hpte, -⟩ := h.stack
  unfold push
  rw [wp_get_bind, wp_bind]
  refine wp_when (fun hfault => ?_) (fun hno => ?_)
  · have hread : ¬ HasFlag w.perm pteW := fun hwrite =>
      hfault ((hasFlag_perm hw (by decide)).mpr hwrite)
    obtain ⟨hcow, hlt, hshare⟩ := hpte.cow h.write hread
    unfold onCaller
    rw [wp_zoom]
    refine wp_mono (pgfault_wp hw hcow) ?_ (fun _ => False.elim) ?_
    · intro _ c' hc
      have hnew : c'.own.entry g.stack = some (copyPte s.caller.fresh) := by
        rw [hc.entry, Function.update_of_ne (Nat.ne_of_gt g.stack_lo), Function.update_self]
      refine wp_of_returns (storeFrame_returns (s := { s with caller := c' })
        (h.copy hw hc hlt hshare) hnew copyPte_write) ?_
      rintro _ s' ⟨hs, hquiet⟩
      refine ⟨hs, hquiet.child.trans hc.child, hc.asked.trans hquiet.asked, ?_⟩
      intro hrefused
      rcases (refused_split hc.asked hquiet.asked).mp hrefused with hr | hr
      · exact hc.given hr
      · exact hquiet.given (hc.memory.symm ▸ hr)
    · exact fun _ hnone => Or.inr (h.memory ▸ hnone)
  · have hwrite := (hasFlag_perm hw (by decide)).mp (not_not.mp hno)
    exact wp_of_returns (storeFrame_returns h hw hwrite) (fun _ _ hs => hs)

end Pushing

/-! ## `duppage` -/

/-- The entry that `duppage` makes in the child, if it makes one. -/
def inherited (w : UserPte) : Option UserPte :=
  if HasFlag w.perm pteShare then
    if HasFlag w.perm pteW then some ⟨w.page, pteSyscall⟩ else none
  else if HasFlag w.perm pteW ∨ HasFlag w.perm pteCow then some (cowPte w.page)
  else some ⟨w.page, pteU ||| pteP⟩

/-- A page that `duppage` maps without looking at the result. -/
def Unchecked (w : UserPte) : Prop :=
  HasFlag w.perm pteShare ∨ ¬ (HasFlag w.perm pteW ∨ HasFlag w.perm pteCow)

/-- The child has its pages below `v`, but for some that are missing because a request for
memory was refused. -/
structure Filled (c₀ : Caller) (v : Nat) (c : Caller) (t : PageTable) : Prop where
  child : c.child = some t
  entry : ∀ u < v, t.entry u = (c₀.own.entry u).bind inherited ∨
    (t.entry u = none ∧ Refused c₀.memory c₀.asked c.asked ∧
      ∃ w, c₀.own.entry u = some w ∧ Unchecked w)
  lost : Refused c₀.memory c₀.asked c.asked →
    ∃ u < v, c₀.own.entry u ≠ none ∧ t.entry u = none
  above : ∀ u, v ≤ u → u < stackPages → t.entry u = none

section Pages

variable {g : Setting} {c₀ c c' : Caller} {w₀ w : UserPte} {pn v : Nat} {s : Forker}
  {t : PageTable} {perm : U32}

/-- The child after more requests, none of them refused. -/
theorem Filled.keep {t' : PageTable} (ht : Filled c₀ v c t) (h : Forking g c₀ w₀ pn c)
    (hchild : c'.child = some t') (hasked : c.asked ≤ c'.asked)
    (hgiven : ¬ Refused c.memory c.asked c'.asked)
    (hentry : ∀ u < stackPages, t'.entry u = t.entry u) (hv : v ≤ stackPages) :
    Filled c₀ v c' t' := by
  have hsame : Refused c₀.memory c₀.asked c'.asked ↔ Refused c₀.memory c₀.asked c.asked := by
    rw [refused_split h.asked hasked]
    exact or_iff_left (h.memory ▸ hgiven)
  refine ⟨hchild, fun u hu => ?_, fun hr => ?_, fun u hu hlt => ?_⟩
  · rw [hentry u (Nat.lt_of_lt_of_le hu hv), hsame]
    exact ht.entry u hu
  · obtain ⟨u, hu, hown, hlost⟩ := ht.lost (hsame.mp hr)
    exact ⟨u, hu, hown, (hentry u (Nat.lt_of_lt_of_le hu hv)).trans hlost⟩
  · exact (hentry u hlt).trans (ht.above u hu hlt)

theorem Filled.quiet (ht : Filled c₀ v c t) (h : Forking g c₀ w₀ pn c) (hq : Quiet c c')
    (hv : v ≤ stackPages) : Filled c₀ v c' t :=
  ht.keep h (hq.child.trans ht.child) hq.asked hq.given (fun _ _ => rfl) hv

/-- There is nothing to copy. -/
theorem Filled.skip (ht : Filled c₀ pn c t) (hlt : pn < stackPages)
    (hnone : c₀.own.entry pn = none) : Filled c₀ (pn + 1) c t where
  child := ht.child
  entry := fun u hu => by
    rcases Nat.lt_succ_iff_lt_or_eq.mp hu with hbelow | rfl
    · exact ht.entry u hbelow
    · refine Or.inl ?_
      rw [hnone, ht.above u (Nat.le_refl u) hlt]
      rfl
  lost := fun hr => by
    obtain ⟨u, hu, hlost⟩ := ht.lost hr
    exact ⟨u, Nat.lt_succ_of_lt hu, hlost⟩
  above := fun u hu => ht.above u (Nat.le_of_succ_le hu)

/-- The page is entered. -/
theorem Filled.fill {hw : pn < userPages ∧ UserFlags w.perm} (ht : Filled c₀ pn c t)
    (hgiven : ¬ Refused c₀.memory c.asked c'.asked) (hasked : c₀.asked ≤ c.asked)
    (hle : c.asked ≤ c'.asked) (hchild : c'.child = some (t.fill pn w hw))
    (hentry : (c₀.own.entry pn).bind inherited = some w) :
    Filled c₀ (pn + 1) c' (t.fill pn w hw) where
  child := hchild
  entry := fun u hu => by
    rcases Nat.lt_succ_iff_lt_or_eq.mp hu with hbelow | rfl
    · rw [PageTable.fill_of_ne (Nat.ne_of_lt hbelow)]
      refine (ht.entry u hbelow).imp_right (fun hlost => ⟨hlost.1, ?_, hlost.2.2⟩)
      exact (refused_split hasked hle).mpr (Or.inl hlost.2.1)
    · refine Or.inl ?_
      rw [hentry, PageTable.fill_self]
  lost := fun hr => by
    obtain ⟨u, hu, hown, hlost⟩ :=
      ht.lost (((refused_split hasked hle).mp hr).resolve_right hgiven)
    exact ⟨u, Nat.lt_succ_of_lt hu, hown, (PageTable.fill_of_ne (Nat.ne_of_lt hu)).trans hlost⟩
  above := fun u hu htop =>
    (PageTable.fill_of_ne (Nat.ne_of_gt hu)).trans (ht.above u (Nat.le_of_succ_le hu) htop)

/-- The page is missing, for want of memory or because it may not be mapped. -/
theorem Filled.miss (ht : Filled c₀ pn c t) (hlt : pn < stackPages)
    (hown : c₀.own.entry pn = some w) (hunchecked : Unchecked w)
    (hchild : c'.child = c.child) (hasked : c₀.asked ≤ c.asked) (hle : c.asked ≤ c'.asked)
    (hwhy : Refused c₀.memory c.asked c'.asked ∨ inherited w = none) :
    Filled c₀ (pn + 1) c' t where
  child := hchild.trans ht.child
  entry := fun u hu => by
    rcases Nat.lt_succ_iff_lt_or_eq.mp hu with hbelow | rfl
    · refine (ht.entry u hbelow).imp_right (fun hlost => ⟨hlost.1, ?_, hlost.2.2⟩)
      exact (refused_split hasked hle).mpr (Or.inl hlost.2.1)
    · have hnone := ht.above u (Nat.le_refl u) hlt
      rcases hwhy with hr | hno
      · exact Or.inr ⟨hnone, (refused_split hasked hle).mpr (Or.inr hr), w, hown, hunchecked⟩
      · refine Or.inl ?_
        rw [hown, hnone]
        exact hno.symm
  lost := fun _ => ⟨pn, Nat.lt_succ_self pn, by rw [hown]; exact Option.some_ne_none w,
    ht.above pn (Nat.le_refl pn) hlt⟩
  above := fun u hu => ht.above u (Nat.le_of_succ_le hu)

theorem Forking.same (h : Forking g c₀ w₀ pn c) (hown : c'.own = c.own)
    (hbytes : c'.bytes = c.bytes) (hfresh : c'.fresh = c.fresh) (hmemory : c'.memory = c.memory)
    (hasked : c.asked ≤ c'.asked) : Forking g c₀ w₀ pn c' where
  write := h.write
  own := hown ▸ h.own
  done := hown ▸ h.done
  stack := by
    rw [hown, hfresh, hbytes]
    exact h.stack
  bytes := hbytes ▸ h.bytes
  fresh := hfresh ▸ h.fresh
  memory := hmemory.trans h.memory
  asked := h.asked.trans hasked

/-- The stack is as it was until `fork` comes to it. -/
theorem Forking.at_stack (h : Forking g c₀ w₀ pn c) (hpn : pn = g.stack) :
    c₀.own.entry g.stack = some w₀ := by
  obtain ⟨w, hw, -, hpte, -⟩ := h.stack
  rw [← h.own g.stack (Nat.le_of_eq hpn) g.stack_hi, hw]
  rcases hpte with ⟨-, rfl⟩ | ⟨hlt, -⟩
  · rfl
  · omega

/-- `duppage` has left the entry of `pn` as it has to. -/
theorem Forking.next (h : Forking g c₀ w₀ pn c) (hlt : pn < stackPages)
    (hsame : (c₀.own.entry pn).map marked = c₀.own.entry pn) :
    Forking g c₀ w₀ (pn + 1) c where
  write := h.write
  own := fun u hu hlt => h.own u (Nat.le_of_succ_le hu) hlt
  done := fun u hu hne htemp => by
    rcases Nat.lt_succ_iff_lt_or_eq.mp hu with hbelow | rfl
    · exact h.done u hbelow hne htemp
    · exact (h.own u (Nat.le_refl u) hlt).trans hsame.symm
  stack := by
    obtain ⟨w, hw, hused, hpte, hbytes⟩ := h.stack
    refine ⟨w, hw, hused, ?_, hbytes⟩
    rcases hpte with ⟨hle, rfl⟩ | ⟨hbelow, hrest⟩
    · by_cases heq : pn = g.stack
      · have hself := hsame
        rw [heq, h.at_stack heq] at hself
        exact Or.inr ⟨by omega, Or.inl (Option.some.inj hself).symm⟩
      · exact Or.inl ⟨by omega, rfl⟩
    · exact Or.inr ⟨by omega, hrest⟩
  bytes := h.bytes
  fresh := h.fresh
  memory := h.memory
  asked := h.asked

/-- The own page is marked copy-on-write. -/
theorem Forking.mark (h : Forking g c₀ w₀ pn c) (hlt : pn < stackPages)
    (hw : c.own.entry pn = some w) (hcow : marked w = cowPte w.page)
    (hown : c'.own.entry = Function.update c.own.entry pn (some (cowPte w.page)))
    (hbytes : c'.bytes = c.bytes) (hfresh : c'.fresh = c.fresh) (hmemory : c'.memory = c.memory)
    (hasked : c.asked ≤ c'.asked) : Forking g c₀ w₀ (pn + 1) c' where
  write := h.write
  own := fun u hu hlt => by
    rw [hown, Function.update_of_ne (Nat.ne_of_gt hu)]
    exact h.own u (Nat.le_of_succ_le hu) hlt
  done := fun u hu hne htemp => by
    rw [hown]
    rcases Nat.lt_succ_iff_lt_or_eq.mp hu with hbelow | rfl
    · rw [Function.update_of_ne (Nat.ne_of_lt hbelow)]
      exact h.done u hbelow hne htemp
    · rw [Function.update_self, ← h.own u (Nat.le_refl u) hlt, hw, Option.map_some, hcow]
  stack := by
    obtain ⟨w', hw', hused, hpte, hsame⟩ := h.stack
    rw [hown, hfresh, hbytes]
    by_cases heq : g.stack = pn
    · subst heq
      obtain rfl : w' = w := Option.some.inj (hw'.symm.trans hw)
      obtain rfl : w' = w₀ := by
        rcases hpte with ⟨-, rfl⟩ | ⟨habs, -⟩
        · rfl
        · exact absurd habs (Nat.lt_irrefl _)
      exact ⟨cowPte w'.page, Function.update_self _ _ _, hused,
        Or.inr ⟨Nat.lt_succ_self _, Or.inl hcow.symm⟩, hsame⟩
    · refine ⟨w', (Function.update_of_ne heq _ _).trans hw', hused, ?_, hsame⟩
      rcases hpte with ⟨hle, rfl⟩ | ⟨hbelow, hrest⟩
      · exact Or.inl ⟨by omega, rfl⟩
      · exact Or.inr ⟨by omega, hrest⟩
  bytes := hbytes ▸ h.bytes
  fresh := hfresh ▸ h.fresh
  memory := hmemory.trans h.memory
  asked := h.asked.trans hasked

/-- `sys_page_map` of a page to the child. -/
theorem mapChild_returns (h : Forking g c₀ w₀ pn c) (ht : Filled c₀ pn c t)
    (hown : c₀.own.entry pn = some w) (hlt : pn < stackPages) (hperm : UserFlags perm)
    (hentry : inherited w =
      if HasFlag perm pteW ∧ ¬ HasFlag w.perm pteW then none else some ⟨w.page, perm⟩) :
    Returns (sysPageMap pn .child pn perm) (fun r c' => Forking g c₀ w₀ pn c' ∧
      (Unchecked w ∨ ¬ r < 0 → ∃ t', Filled c₀ (pn + 1) c' t') ∧
      (r < 0 → (∃ n, c₀.memory n = false) ∨ inherited w = none)) c := by
  have hw : c.own.entry pn = some w := (h.own pn (Nat.le_refl pn) hlt).trans hown
  have hin : pn < userPages ∧ UserFlags perm := ⟨c.own.below pn w hw, hperm⟩
  refine Returns.mono (sysPageMap_asks (show c.space .child = some t from ht.child) hw hin) ?_
  rintro r c' ⟨k, hk, ⟨hr, rfl, hwhy⟩ | ⟨rfl, hgiven, hgrant, rfl⟩⟩
  · have hwhy' : Refused c₀.memory c.asked k ∨ inherited w = none := by
      rw [← h.memory]
      exact hwhy.imp_right (fun hread => by rw [hentry, if_pos ⟨hread.2.2, hread.2.1⟩])
    refine ⟨h.same rfl rfl rfl rfl hk, fun hunchecked => ?_, fun _ => hwhy'.imp_left Refused.some⟩
    exact ⟨t, ht.miss hlt hown (hunchecked.resolve_right (not_not_intro hr)) rfl h.asked hk hwhy'⟩
  · have hchild : (c₀.own.entry pn).bind inherited = some ⟨w.page, perm⟩ := by
      rw [hown]
      change inherited w = _
      rw [hentry, if_neg (fun hh => hh.2 (hgrant hh.1))]
    have hfilled : Filled c₀ (pn + 1)
        (Caller.setSpace { c with asked := k } (t.fill pn ⟨w.page, perm⟩ hin) .child)
        (t.fill pn ⟨w.page, perm⟩ hin) :=
      ht.fill (h.memory ▸ hgiven) h.asked hk rfl hchild
    exact ⟨h.same rfl rfl rfl rfl hk, fun _ => ⟨_, hfilled⟩, fun hr => absurd hr (by decide)⟩

end Pages

/-! ## The loop -/

section Loop

variable {α β : Type} {g : Setting} {c₀ : Caller} {w₀ w : UserPte} {pn : Nat} {s : Forker}

theorem orRefused_bind {m : Prog Forker α} {f : α → Prog Forker β} {R : α → Forker → Prop}
    {R' : β → Forker → Prop} (h : wp m (orRefused g c₀ R) s)
    (hret : ∀ a s', R a s' → wp (f a) (orRefused g c₀ R') s') :
    wp (m >>= f) (orRefused g c₀ R') s :=
  (wp_bind m f _).mpr (wp_mono h hret (fun _ => False.elim) (fun _ hs => hs))

theorem returns_onCaller {m : Prog Caller α} {R : α → Caller → Prop}
    (h : Returns m R s.caller) : Returns (onCaller m) (fun a s' => R a s'.caller) s :=
  (wp_zoom _ _ m).mpr (wp_of_returns h (fun _ _ hr => hr))

/-- The invariant of the loop. -/
def Looping (g : Setting) (c₀ : Caller) (w₀ : UserPte) (pn : Nat) (s : Forker) : Prop :=
  Forking g c₀ w₀ pn s.caller ∧ ∃ t, Filled c₀ pn s.caller t

/-- A page that is only mapped in the child, whatever the call returns. -/
theorem dupChild_wp {t : PageTable} {perm : U32} (h : Forking g c₀ w₀ pn s.caller)
    (ht : Filled c₀ pn s.caller t) (hown : c₀.own.entry pn = some w) (hlt : pn < stackPages)
    (hunchecked : Unchecked w) (hsame : marked w = w) (hperm : UserFlags perm)
    (hentry : inherited w =
      if HasFlag perm pteW ∧ ¬ HasFlag w.perm pteW then none else some ⟨w.page, perm⟩) :
    wp (do
      push g
      let _ ← onCaller (sysPageMap pn .child pn perm)
      pure ()) (orRefused g c₀ (fun _ s' => Looping g c₀ w₀ (pn + 1) s')) s := by
  refine orRefused_bind (push_wp h) (fun _ s₁ hs₁ => ?_)
  rw [wp_bind]
  refine wp_of_returns (returns_onCaller
    (mapChild_returns hs₁.1 (ht.quiet h hs₁.2 hlt.le) hown hlt hperm hentry)) ?_
  rintro r s₂ ⟨h₂, hfilled, -⟩
  refine ⟨h₂.next hlt ?_, hfilled (Or.inl hunchecked)⟩
  rw [hown, Option.map_some, hsame]

/-- A page that may be written is mapped in the child, and then marked. -/
theorem dupCow_wp {t : PageTable} (h : Forking g c₀ w₀ pn s.caller)
    (ht : Filled c₀ pn s.caller t) (hown : c₀.own.entry pn = some w) (hlt : pn < stackPages)
    (hcow : marked w = cowPte w.page) (hentry : inherited w = some (cowPte w.page)) :
    wp (do
      push g
      let r ← onCaller (sysPageMap pn .child pn (pteCow ||| pteU ||| pteP))
      Prog.when (r < 0) Prog.stop
      push g
      let r ← onCaller (sysPageMap pn .own pn (pteCow ||| pteU ||| pteP))
      Prog.when (r < 0) Prog.stop)
      (orRefused g c₀ (fun _ s' => Looping g c₀ w₀ (pn + 1) s')) s := by
  have hread : ¬ HasFlag (pteCow ||| pteU ||| pteP) pteW := by decide
  refine orRefused_bind (push_wp h) (fun _ s₁ hs₁ => ?_)
  refine wp_checked (returns_onCaller (mapChild_returns hs₁.1 (ht.quiet h hs₁.2 hlt.le) hown hlt
    (by decide) (by rw [if_neg (fun hh => hread hh.1)]; exact hentry))) ?_ ?_
  · rintro r s₂ ⟨-, -, hfail⟩ hr
    rcases hfail hr with hnone | hnone
    · exact Or.inr hnone
    · rw [hentry] at hnone
      exact absurd hnone (Option.some_ne_none _)
  rintro r s₂ ⟨h₂, hfilled, -⟩ hr
  obtain ⟨t', ht₂⟩ := hfilled (Or.inr hr)
  refine orRefused_bind (push_wp h₂) (fun _ s₃ hs₃ => ?_)
  have hw : s₃.caller.own.entry pn = some w := (hs₃.1.own pn (Nat.le_refl pn) hlt).trans hown
  have hin : pn < userPages ∧ UserFlags (pteCow ||| pteU ||| pteP) :=
    ⟨s₃.caller.own.below pn w hw, by decide⟩
  refine wp_checked_end (returns_onCaller (sysPageMap_asks
    (show s₃.caller.space .own = some s₃.caller.own from rfl) hw hin)) ?_ ?_
  · rintro r s₄ ⟨k, -, ⟨-, -, hrefused | ⟨-, -, hwrite⟩⟩ | ⟨rfl, -⟩⟩ hr
    · exact Or.inr (hs₃.1.memory ▸ hrefused.some)
    · exact absurd hwrite hread
    · exact absurd hr (by decide)
  rintro r s₄ ⟨k, hk, ⟨hr, -⟩ | ⟨-, hgiven, -, hs₄⟩⟩ hnr
  · exact absurd hr hnr
  have hquiet : Quiet s₃.caller s₄.caller := by
    rw [hs₄]
    exact ⟨rfl, hk, hgiven⟩
  refine ⟨hs₃.1.mark hlt hw hcow ?_ ?_ ?_ ?_ hquiet.asked, t',
    (ht₂.quiet h₂ hs₃.2 hlt).quiet hs₃.1 hquiet hlt⟩ <;> rw [hs₄] <;> rfl

theorem duppage_wp (h : Looping g c₀ w₀ pn s) (hown : c₀.own.entry pn = some w)
    (hlt : pn < stackPages) :
    wp (duppage g pn) (orRefused g c₀ (fun _ s' => Looping g c₀ w₀ (pn + 1) s')) s := by
  obtain ⟨h, t, ht⟩ := h
  unfold duppage
  refine orRefused_bind (push_wp h) (fun _ s₁ hs₁ => ?_)
  have ht₁ := ht.quiet h hs₁.2 hlt.le
  have hw : s₁.caller.own.entry pn = some w := (hs₁.1.own pn (Nat.le_refl pn) hlt).trans hown
  rw [wp_get_bind]
  refine wp_ite (fun hshare => ?_) (fun hshare => wp_ite (fun hwrite => ?_) (fun hwrite => ?_))
  · rw [hasFlag_perm hw (by decide)] at hshare
    refine dupChild_wp hs₁.1 ht₁ hown hlt (Or.inl hshare) (if_pos hshare) (by decide) ?_
    unfold inherited
    rw [if_pos hshare]
    by_cases hw' : HasFlag w.perm pteW
    · rw [if_pos hw', if_neg (fun hh => hh.2 hw')]
    · rw [if_neg hw', if_pos ⟨by decide, hw'⟩]
  · rw [hasFlag_perm hw (by decide)] at hshare
    rw [hasFlag_perm hw (by decide), hasFlag_perm hw (by decide)] at hwrite
    refine dupCow_wp hs₁.1 ht₁ hown hlt ?_ ?_
    · exact (if_neg hshare).trans (if_pos hwrite)
    · exact (if_neg hshare).trans (if_pos hwrite)
  · rw [hasFlag_perm hw (by decide)] at hshare
    rw [hasFlag_perm hw (by decide), hasFlag_perm hw (by decide)] at hwrite
    have hread : ¬ HasFlag (pteU ||| pteP) pteW := by decide
    refine dupChild_wp hs₁.1 ht₁ hown hlt (Or.inr hwrite)
      ((if_neg hshare).trans (if_neg hwrite)) (by decide) ?_
    unfold inherited
    rw [if_neg hshare, if_neg hwrite, if_neg (fun hh => hread hh.1)]

/-- Every page that is mapped has `PTE_U` and `PTE_P`. -/
theorem userFlags_has {perm : U32} (h : UserFlags perm) :
    HasFlag perm pteP ∧ HasFlag perm pteU := by
  have hpart : ∀ f : U32, (pteU ||| pteP) &&& f = f → f ≠ 0#32 → HasFlag perm f := by
    intro f hf hne hzero
    have hand : perm &&& f = f := by
      calc perm &&& f = perm &&& ((pteU ||| pteP) &&& f) := by rw [hf]
        _ = (perm &&& (pteU ||| pteP)) &&& f := (BitVec.and_assoc _ _ _).symm
        _ = f := by rw [h, hf]
    exact hne (hand.symm.trans hzero)
  exact ⟨hpart pteP (by decide) (by decide), hpart pteU (by decide) (by decide)⟩

theorem forkPage_wp (h : Looping g c₀ w₀ pn s) (hlt : pn < stackPages) :
    wp (forkPage g pn) (orRefused g c₀ (fun _ s' => Looping g c₀ w₀ (pn + 1) s')) s := by
  have hsame := h.1.own pn (Nat.le_refl pn) hlt
  unfold forkPage
  rw [wp_get_bind]
  cases hown : c₀.own.entry pn with
  | none =>
      have hzero : s.caller.perm pn = 0#32 := by
        unfold Caller.perm
        rw [hsame, hown]
      refine wp_when (fun hflag => ?_) (fun _ => ?_)
      · rw [hzero] at hflag
        exact absurd hflag.1 (not_hasFlag_zero pteP)
      · obtain ⟨h, t, ht⟩ := h
        refine ⟨h.next hlt ?_, t, ht.skip hlt hown⟩
        rw [hown]
        rfl
  | some w =>
      have hw := hsame.trans hown
      have hflags := userFlags_has (s.caller.own.flags pn w hw)
      refine wp_when (fun _ => duppage_wp h hown hlt) (fun hno => ?_)
      rw [hasFlag_perm hw (by decide), hasFlag_perm hw (by decide)] at hno
      exact absurd hflags hno

theorem forkLoop_wp (h : Looping g c₀ w₀ 0 s) :
    wp (Prog.forRange 0 stackPages (forkPage g))
      (orRefused g c₀ (fun _ s' => Looping g c₀ w₀ stackPages s')) s := by
  refine wp_forRange (Looping g c₀ w₀) 0 stackPages (fun j s' _ hj hs' => ?_) (fun s' hs' => ?_) h
  · exact forkPage_wp hs' (by omega)
  · rwa [Nat.zero_add] at hs'

end Loop

/-! ## `fork` -/

/-- The caller of `fork`: what it maps exists, and the call has pushed its return address. -/
structure Ready (g : Setting) (c : Caller) (w₀ : UserPte) : Prop where
  stack : c.own.entry g.stack = some w₀
  write : HasFlag w₀.perm pteW
  used : ∀ v w, c.own.entry v = some w → w.page < c.fresh

/-- Before there is a child. -/
def Starting (g : Setting) (c₀ : Caller) (w₀ : UserPte) (s : Forker) : Prop :=
  Forking g c₀ w₀ 0 s.caller ∧ ¬ Refused c₀.memory c₀.asked s.caller.asked

section Whole

variable {g : Setting} {c₀ c c' : Caller} {w₀ : UserPte} {s : Forker} {t t' : PageTable}

theorem Starting.quiet {s' : Forker} (h : Starting g c₀ w₀ s) (hs : Forking g c₀ w₀ 0 s'.caller)
    (hq : Quiet s.caller s'.caller) : Starting g c₀ w₀ s' := by
  refine ⟨hs, fun hr => ?_⟩
  rcases (refused_split h.1.asked hq.asked).mp hr with hr | hr
  · exact h.2 hr
  · exact hq.given (h.1.memory.symm ▸ hr)

theorem Ready.starting (hs : Ready g s.caller w₀) : Starting g s.caller w₀ s := by
  refine ⟨⟨hs.write, fun _ _ _ => rfl, fun u hu => absurd hu (Nat.not_lt_zero u), ?_,
    fun _ _ _ _ => rfl, Nat.le_refl _, rfl, Nat.le_refl _⟩, not_refused_self⟩
  exact ⟨w₀, hs.stack, hs.used _ _ hs.stack, Or.inl ⟨Nat.zero_le _, rfl⟩, fun _ _ => rfl⟩

/-- A page that is allocated above the stack. -/
theorem Forking.alloc {v : Nat} (h : Forking g c₀ w₀ v c) (hv : v ≤ stackPages)
    (hown : ∀ u < stackPages, c'.own.entry u = c.own.entry u)
    (hbytes : c'.bytes = Function.update c.bytes c.fresh (fun _ => 0#8))
    (hfresh : c'.fresh = c.fresh + 1) (hmemory : c'.memory = c.memory)
    (hasked : c.asked ≤ c'.asked) : Forking g c₀ w₀ v c' where
  write := h.write
  own := fun u hu hlt => (hown u hlt).trans (h.own u hu hlt)
  done := fun u hu hne htemp =>
    (hown u (Nat.lt_of_lt_of_le hu hv)).trans (h.done u hu hne htemp)
  stack := by
    obtain ⟨w, hw, hused, hpte, hsame⟩ := h.stack
    refine ⟨w, (hown _ g.stack_hi).trans hw, hfresh ▸ Nat.lt_succ_of_lt hused, hpte, ?_⟩
    rw [hbytes, Function.update_of_ne (Nat.ne_of_lt hused)]
    exact hsame
  bytes := fun p hp o ho => by
    rw [hbytes, Function.update_of_ne (Nat.ne_of_lt (Nat.lt_of_lt_of_le hp h.fresh))]
    exact h.bytes p hp o ho
  fresh := h.fresh.trans (hfresh ▸ Nat.le_succ _)
  memory := hmemory.trans h.memory
  asked := h.asked.trans hasked

/-- The stack may be written until `fork` marks it. -/
theorem Starting.storeFrame (hr : Ready g c₀ w₀) (h : Starting g c₀ w₀ s) :
    Returns (storeFrame g) (fun _ s' => Starting g c₀ w₀ s') s := by
  have hw := (h.1.own g.stack (Nat.zero_le _) g.stack_hi).trans hr.stack
  exact (storeFrame_returns h.1 hw hr.write).mono (fun _ s' hs => h.quiet hs.1 hs.2)

theorem ne_xstackPage {u : Nat} (hu : u < stackPages) : u ≠ xstackPage := by
  unfold stackPages at hu
  unfold xstackPage
  omega

theorem setPgfaultHandler_wp (hr : Ready g c₀ w₀) (h : Starting g c₀ w₀ s) :
    wp (setPgfaultHandler g) (orRefused g c₀ (fun _ s' => Starting g c₀ w₀ s')) s := by
  have hin : xstackPage < userPages ∧ UserFlags (pteW ||| pteU ||| pteP) := by decide
  unfold setPgfaultHandler
  rw [wp_get_bind, wp_bind]
  refine wp_when (fun _ => ?_) (fun _ => h)
  rw [wp_bind]
  refine wp_of_returns (h.storeFrame hr) (fun _ s₁ h₁ => ?_)
  refine wp_checked (returns_onCaller (sysPageAlloc_asks
    (show s₁.caller.space .own = some s₁.caller.own from rfl) hin)) ?_ ?_
  · rintro r s₂ (⟨-, hnone⟩ | ⟨rfl, -⟩) hr
    · exact Or.inr (h₁.1.memory ▸ hnone)
    · exact absurd hr (by decide)
  rintro r s₂ (⟨hneg, -⟩ | ⟨-, k, hk, hgiven, hs₂⟩) hnr
  · exact absurd hneg hnr
  have h₂ : Starting g c₀ w₀ s₂ := by
    refine h₁.quiet (h₁.1.alloc (Nat.zero_le _) (fun u hu => ?_) ?_ ?_ ?_ ?_) ⟨?_, ?_, ?_⟩ <;>
      rw [hs₂]
    · exact Function.update_of_ne (ne_xstackPage hu) _ _
    · rfl
    · rfl
    · rfl
    · exact hk
    · rfl
    · exact hk
    · exact hgiven
  exact wp_of_returns (h₂.storeFrame hr) (fun _ s₃ h₃ => h₃)

/-- There is a child, with no page; or there is no environment or no memory. -/
theorem sysExofork_wp (h : Starting g c₀ w₀ s) :
    Returns (onCaller (sysExofork g)) (fun r s' =>
      (r < 0 ∧ (g.slot = none ∨ ∃ n, c₀.memory n = false)) ∨
      (g.slot = some r ∧ 0 < r ∧ Looping g c₀ w₀ 0 s')) s := by
  refine (wp_zoom _ _ _).mpr ?_
  unfold sysExofork
  cases hslot : g.slot with
  | none => exact Or.inl ⟨by decide, Or.inl rfl⟩
  | some r =>
      dsimp only
      unfold needPage
      rw [wp_bind, wp_get_bind, wp_modify_bind, wp_pure]
      dsimp only
      refine wp_ite (fun hyes => ?_) (fun hno => Or.inl ⟨by decide, Or.inr ?_⟩)
      · have hquiet : Quiet s.caller { s.caller with asked := s.caller.asked + 1 } :=
          ⟨rfl, Nat.le_succ _, by rw [refused_one, hyes]; exact Bool.noConfusion⟩
        have hs : Starting g c₀ w₀
            { s with caller := { s.caller with asked := s.caller.asked + 1 } } :=
          h.quiet (h.1.same rfl rfl rfl rfl (Nat.le_succ _)) hquiet
        refine Or.inr ⟨rfl, g.slot_pos r hslot, hs.1.same rfl rfl rfl rfl (Nat.le_refl _),
          PageTable.empty, rfl, fun u hu => absurd hu (Nat.not_lt_zero u),
          fun hr => absurd hr hs.2, fun _ _ _ => rfl⟩
      · exact ⟨s.caller.asked, h.1.memory ▸ Bool.not_eq_true _ ▸ hno⟩

/-- The child that `fork` returns. -/
theorem fork_wp (hr : Ready g s.caller w₀) :
    wp (fork g) (orRefused g s.caller (fun r s' => g.slot = some r ∧ 0 < r ∧
      Looping g s.caller w₀ stackPages s')) s := by
  have hin : xstackPage < userPages ∧ UserFlags (pteP ||| pteW ||| pteU) := by decide
  unfold fork
  rw [wp_bind]
  refine wp_of_returns (hr.starting.storeFrame hr) (fun _ s₁ h₁ => ?_)
  refine orRefused_bind (setPgfaultHandler_wp hr h₁) (fun _ s₂ h₂ => ?_)
  refine orRefused_bind (push_wp h₂.1) (fun _ s₃ hs₃ => ?_)
  refine wp_checked (sysExofork_wp (h₂.quiet hs₃.1 hs₃.2)) ?_ ?_
  · rintro r s₄ (⟨-, hnone⟩ | ⟨-, hpos, -⟩) hneg
    · exact hnone
    · exact absurd hneg (Int.not_lt.mpr hpos.le)
  rintro r s₄ (⟨hneg, -⟩ | ⟨hslot, hpos, h₄⟩) hnr
  · exact absurd hneg hnr
  refine orRefused_bind (forkLoop_wp h₄) (fun _ s₅ h₅ => ?_)
  obtain ⟨h₅, t, ht₅⟩ := h₅
  refine orRefused_bind (push_wp h₅) (fun _ s₆ hs₆ => ?_)
  have ht₆ := ht₅.quiet h₅ hs₆.2 (Nat.le_refl _)
  refine wp_checked (returns_onCaller (sysPageAlloc_asks
    (show s₆.caller.space .child = some t from ht₆.child) hin)) ?_ ?_
  · rintro r s₇ (⟨-, hnone⟩ | ⟨rfl, -⟩) hneg
    · exact Or.inr (hs₆.1.memory ▸ hnone)
    · exact absurd hneg (by decide)
  rintro r₇ s₇ (⟨hneg, -⟩ | ⟨-, k, hk, hgiven, hs₇⟩) hnr
  · exact absurd hneg hnr
  have h₇ : Forking g s.caller w₀ stackPages s₇.caller := by
    refine hs₆.1.alloc (Nat.le_refl _) (fun u hu => ?_) ?_ ?_ ?_ ?_ <;> rw [hs₇]
    · rfl
    · rfl
    · rfl
    · rfl
    · exact hk
  have ht₇ : Filled s.caller stackPages s₇.caller
      (t.fill xstackPage ⟨s₆.caller.fresh, pteP ||| pteW ||| pteU⟩ hin) := by
    refine ht₆.keep hs₆.1 ?_ ?_ ?_ (fun u hu => Function.update_of_ne (ne_xstackPage hu) _ _)
      (Nat.le_refl _) <;> rw [hs₇]
    · rfl
    · exact hk
    · exact hgiven
  refine orRefused_bind (push_wp h₇) (fun _ s₈ hs₈ => ?_)
  have ht₈ := ht₇.quiet h₇ hs₈.2 (Nat.le_refl _)
  refine orRefused_bind (push_wp hs₈.1) (fun _ s₉ hs₉ => ?_)
  have ht₉ := ht₈.quiet hs₈.1 hs₉.2 (Nat.le_refl _)
  unfold sysEnvSetStatus onCaller
  rw [wp_bind, wp_zoom, wp_get_bind, wp_pure]
  dsimp only
  rw [ht₉.child]
  refine (wp_bind _ _ _).mpr (wp_when (fun hneg => absurd hneg (Int.lt_irrefl 0)) (fun _ => ?_))
  exact ⟨hslot, hpos, hs₉.1, _, ht₉⟩

end Whole

end Jos.User.Fork

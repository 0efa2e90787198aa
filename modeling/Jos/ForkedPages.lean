import Jos.ForkRuns

/-!
# The pages that a child inherits

`fork` gives its child every page of the parent unless a shared page may only be read:
`duppage` maps shared pages with `PTE_W`, which `sys_page_map` then refuses.
-/

namespace Jos.User.Fork

open Programs

/-! ## What the child inherits -/

/-- The part of the memory that `fork` writes: the stack below the stack pointer. -/
def Below (g : Setting) (c : Caller) (p o : Nat) : Prop :=
  (∃ w, c.own.entry g.stack = some w ∧ w.page = p) ∧ o < g.esp

/-- The entry of the child for page number `v`. -/
def childEntry (c : Caller) (v : Nat) : Option UserPte := c.child.bind (fun t => t.entry v)

/-- The child has every page below `USTACKTOP` that `c`, the caller of `fork`, had: the
same page with the same right to write it if it is shared, and a page with the same contents
otherwise. -/
structure Inherits (g : Setting) (c c' : Caller) : Prop where
  shared : ∀ v < stackPages, ∀ w, c.own.entry v = some w → HasFlag w.perm pteU →
    HasFlag w.perm pteShare → ∃ w', childEntry c' v = some w' ∧ w'.page = w.page ∧
      (HasFlag w'.perm pteW ↔ HasFlag w.perm pteW)
  copied : ∀ v < stackPages, ∀ w, c.own.entry v = some w → HasFlag w.perm pteU →
    ¬ HasFlag w.perm pteShare → ∃ w', childEntry c' v = some w' ∧
      ∀ o, ¬ Below g c w.page o → c'.bytes w'.page o = c.bytes w.page o

/-- The shared pages may be written, and `fork` was not refused any memory. -/
structure Sharable (c c' : Caller) : Prop where
  write : ∀ v < stackPages, ∀ w, c.own.entry v = some w → HasFlag w.perm pteShare →
    HasFlag w.perm pteW
  given : ¬ Refused c.memory c.asked c'.asked

section Inheriting

variable {g : Setting} {c c' : Caller} {w₀ w : UserPte} {s : Forker} {v : Nat} {t : PageTable}

/-- A page that the child inherits is there. -/
theorem Inherits.present (h : Inherits g c c') (hv : v < stackPages)
    (hw : c.own.entry v = some w) : childEntry c' v ≠ none := by
  have hu := (userFlags_has (c.own.flags v w hw)).2
  by_cases hshare : HasFlag w.perm pteShare
  · obtain ⟨w', hw', -⟩ := h.shared v hv w hw hu hshare
    rw [hw']
    exact Option.some_ne_none w'
  · obtain ⟨w', hw', -⟩ := h.copied v hv w hw hu hshare
    rw [hw']
    exact Option.some_ne_none w'

theorem Filled.childEntry (ht : Filled c v c' t) (u : Nat) : childEntry c' u = t.entry u := by
  unfold Fork.childEntry
  rw [ht.child]
  rfl

/-- With all the memory asked for, every page is as `duppage` makes it. -/
theorem Filled.exact (ht : Filled c v c' t) (hgiven : ¬ Refused c.memory c.asked c'.asked)
    (u : Nat) (hu : u < v) : t.entry u = (c.own.entry u).bind inherited :=
  (ht.entry u hu).resolve_right (fun hlost => hgiven hlost.2.1)

/-- A child that inherits every page was refused none. -/
theorem Inherits.sharable (h : Inherits g c c') (ht : Filled c stackPages c' t) :
    Sharable c c' := by
  have hgiven : ¬ Refused c.memory c.asked c'.asked := by
    intro hr
    obtain ⟨u, hu, hown, hlost⟩ := ht.lost hr
    obtain ⟨w, hw⟩ := Option.ne_none_iff_exists'.mp hown
    exact h.present hu hw ((ht.childEntry u).trans hlost)
  refine ⟨fun v hv w hw hshare => not_not.mp (fun hread => h.present hv hw ?_), hgiven⟩
  rw [ht.childEntry, ht.exact hgiven v hv, hw]
  change inherited w = none
  unfold inherited
  rw [if_pos hshare, if_neg hread]

theorem Sharable.inherits (h : Sharable c c') (hr : Ready g c w₀)
    (hc : Forking g c w₀ stackPages c') (ht : Filled c stackPages c' t) : Inherits g c c' := by
  have hentry : ∀ v < stackPages, ∀ w, c.own.entry v = some w →
      Fork.childEntry c' v = inherited w := by
    intro v hv w hw
    rw [ht.childEntry, ht.exact h.given v hv, hw]
    rfl
  constructor
  · intro v hv w hw _ hshare
    have hwrite := h.write v hv w hw hshare
    refine ⟨⟨w.page, pteSyscall⟩, ?_, rfl, iff_of_true ?_ hwrite⟩
    · rw [hentry v hv w hw, inherited, if_pos hshare, if_pos hwrite]
    · change HasFlag pteSyscall pteW
      decide
  · intro v hv w hw _ hshare
    have hpage : ∃ w', inherited w = some w' ∧ w'.page = w.page := by
      unfold inherited
      rw [if_neg hshare]
      split
      · exact ⟨_, rfl, rfl⟩
      · exact ⟨_, rfl, rfl⟩
    obtain ⟨w', hw', hsame⟩ := hpage
    refine ⟨w', (hentry v hv w hw).trans hw', fun o ho => ?_⟩
    rw [hsame]
    exact hc.bytes w.page (hr.used v w hw) o
      (fun hbelow => ho ⟨⟨w₀, hr.stack, hbelow.1.symm⟩, hbelow.2⟩)

/-- Every `fork` that returns gives the child all pages of the parent exactly if the shared
ones may be written and no memory is refused; and it returns unless there is no environment
or no memory. -/
theorem fork_inherits (hr : Ready g s.caller w₀) :
    wp (fork g) (orRefused g s.caller (fun r s' => 0 < r ∧
      (Inherits g s.caller s'.caller ↔ Sharable s.caller s'.caller))) s := by
  refine wp_mono (fork_wp hr) ?_ (fun _ => False.elim) (fun _ h => h)
  rintro r s' ⟨-, hpos, hc, t, ht⟩
  exact ⟨hpos, fun h => h.sharable ht, fun h => h.inherits hr hc ht⟩

/-- With an environment and memory a program that only panics for want of them returns. -/
theorem returns_of_memory {α : Type} {m : Prog Forker α} {R : α → Forker → Prop}
    (h : wp m (orRefused g c R) s) (hslot : g.slot ≠ none) (hmemory : ∀ n, c.memory n = true) :
    ∃ a s', m.run s = .ret a s' ∧ R a s' := by
  refine returns_iff.mp (wp_mono h (fun _ _ hR => hR) (fun _ hexit => hexit) ?_)
  rintro _ (hnone | ⟨n, hn⟩)
  · exact hslot hnone
  · rw [hmemory n] at hn
    exact Bool.noConfusion hn

end Inheriting

/-! ## A shared page -/

/-- A program on the stack page below `USTACKTOP`. -/
def topSetting : Setting where
  slot := some 0x1002
  slot_pos := fun c hc => by
    obtain rfl := Option.some.inj hc
    decide
  stack := stackPages - 1
  esp := 0xF00
  stack_lo := by decide
  stack_hi := by decide
  frames := fun _ _ => 0#8

/-- The stack, and a page at 0xA0000000 with the flags `perm` besides. -/
def sharingTable (perm : U32) (hperm : UserFlags perm) : PageTable :=
  (PageTable.empty.fill (stackPages - 1) ⟨0, pteP ||| pteU ||| pteW⟩ (by decide)).fill 0xA0000
    ⟨1, perm⟩ ⟨by decide, hperm⟩

def sharingForker (perm : U32) (hperm : UserFlags perm) : Forker where
  caller :=
    { own := sharingTable perm hperm
      child := none
      bytes := fun _ _ => 0#8
      fresh := 2
      memory := fun _ => true
      asked := 0 }
  handler := false
  pushes := 0

section Sharing

variable {perm : U32} (hperm : UserFlags perm)

theorem sharingTable_stack : (sharingTable perm hperm).entry (stackPages - 1) =
    some ⟨0, pteP ||| pteU ||| pteW⟩ := by
  unfold sharingTable
  rw [PageTable.fill_of_ne (by decide), PageTable.fill_self]

theorem sharingTable_page : (sharingTable perm hperm).entry 0xA0000 = some ⟨1, perm⟩ :=
  PageTable.fill_self

theorem sharingTable_cases {v : Nat} {w : UserPte}
    (h : (sharingTable perm hperm).entry v = some w) :
    w = ⟨1, perm⟩ ∨ w = ⟨0, pteP ||| pteU ||| pteW⟩ := by
  by_cases hv : v = 0xA0000
  · subst hv
    exact Or.inl (Option.some.inj (h.symm.trans (sharingTable_page hperm)))
  · unfold sharingTable at h
    rw [PageTable.fill_of_ne hv] at h
    by_cases hs : v = stackPages - 1
    · subst hs
      rw [PageTable.fill_self] at h
      exact Or.inr (Option.some.inj h).symm
    · rw [PageTable.fill_of_ne hs] at h
      exact absurd h.symm (Option.some_ne_none w)

theorem sharingForker_ready :
    Ready topSetting (sharingForker perm hperm).caller ⟨0, pteP ||| pteU ||| pteW⟩ where
  stack := sharingTable_stack hperm
  write := by
    change HasFlag (pteP ||| pteU ||| pteW) pteW
    decide
  used := fun v w hw => by
    rcases sharingTable_cases hperm hw with rfl | rfl
    · exact Nat.lt_succ_self 1
    · exact Nat.zero_lt_succ 1

end Sharing

/-- A shared page that may be written, and one that may only be read. -/
def writeFlags : U32 := pteP ||| pteU ||| pteW ||| pteShare

def readFlags : U32 := pteP ||| pteU ||| pteShare

theorem writeFlags_user : UserFlags writeFlags := by decide

theorem readFlags_user : UserFlags readFlags := by decide

theorem topSetting_slot : topSetting.slot ≠ none := by
  unfold topSetting
  exact Option.some_ne_none _

theorem fork_inherits_writable : ∃ r s',
    (fork topSetting).run (sharingForker writeFlags writeFlags_user) = .ret r s' ∧ 0 < r ∧
    Inherits topSetting (sharingForker writeFlags writeFlags_user).caller s'.caller := by
  have hwp := fork_inherits (s := sharingForker writeFlags writeFlags_user)
    (sharingForker_ready writeFlags_user)
  obtain ⟨r, s', hrun, hpos, hiff⟩ := returns_of_memory hwp topSetting_slot (fun _ => rfl)
  refine ⟨r, s', hrun, hpos, hiff.mpr ⟨fun v _ w hw _ => ?_, ?_⟩⟩
  · rcases sharingTable_cases writeFlags_user hw with rfl | rfl
    · change HasFlag writeFlags pteW
      decide
    · change HasFlag (pteP ||| pteU ||| pteW) pteW
      decide
  · rintro ⟨n, -, -, hn⟩
    exact Bool.noConfusion hn

/-- A shared page that may only be read is not in the child, though there is memory. -/
theorem not_fork_inherits : ∃ r s',
    (fork topSetting).run (sharingForker readFlags readFlags_user) = .ret r s' ∧ 0 < r ∧
    ¬ Inherits topSetting (sharingForker readFlags readFlags_user).caller s'.caller := by
  have hwp := fork_wp (s := sharingForker readFlags readFlags_user)
    (sharingForker_ready readFlags_user)
  obtain ⟨r, s', hrun, -, hpos, -, t, ht⟩ := returns_of_memory hwp topSetting_slot (fun _ => rfl)
  refine ⟨r, s', hrun, hpos, fun h => ?_⟩
  have hwrite := (h.sharable ht).write 0xA0000 (by decide) _ (sharingTable_page readFlags_user)
    (show HasFlag readFlags pteShare by decide)
  exact absurd hwrite (show ¬ HasFlag readFlags pteW by decide)

end Jos.User.Fork

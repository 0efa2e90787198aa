import Jos.ForkedPages
import Jos.HeapSafety

/-!
# The heap after `fork`

The allocator marks the pages of a large block in the page table (`PTE_CONTINUED`).
`duppage` and `pgfault` enter pages without that flag, in the parent and in the child,
so that a block of several pages can no longer be freed.
-/

namespace Jos.User.Fork

open Programs Malloc Bytes

/-! ## The heap of an address space -/

/-- `PTE_CONTINUED`. -/
def pteContinued : U32 := 0x200#32

/-- The heap that the allocator finds in an address space; its own variables are those
of `h`. -/
def heapOf (t : PageTable) (bytes : Nat → Nat → U8) (h : Heap) : Heap :=
  { h with
    uvpt := fun p => (t.entry p).map (fun w => decide (HasFlag w.perm pteContinued))
    mem := fun a => ((t.entry (a / 4096)).map (fun w => bytes w.page (a % 4096))).getD 0#8 }

/-- A page of one environment, though it may be marked copy-on-write. -/
def Private (w : UserPte) : Prop :=
  ¬ HasFlag w.perm pteShare ∧ (HasFlag w.perm pteW ∨ HasFlag w.perm pteCow)

/-- The caller of `fork` has a heap with the blocks `live`.  `malloc` maps pages that are
written and not shared.  The stack may be on the heap, in a block. -/
structure HeapSpace (g : Setting) (c : Caller) (w₀ : UserPte) (h : Heap) (live : List Block) :
    Prop where
  heap : ∃ extra, HeapInv extra (heapOf c.own c.bytes h) live
  own : ∀ p, InHeap p → ∀ w, c.own.entry p = some w → Private w
  counts : ∀ p, InHeap p → ∀ w, c.own.entry p = some w → w.page = w₀.page →
    ¬ HasFlag w.perm pteContinued → g.esp ≤ 4092

/-- The child in the place of the caller, and the other way round. -/
def swap (c : Caller) : Caller :=
  match c.child with
  | none => c
  | some t => { c with own := t, child := some c.own }

/-- The write faults of the two environments that follow, in any order. -/
inductive Faults : Caller → Caller → Prop where
  | none {c : Caller} : Faults c c
  | own {c c' c'' : Caller} {v : Nat} :
      (pgfault v).run c = .ret () c' → Faults c' c'' → Faults c c''
  | child {c c' c'' : Caller} {v : Nat} :
      (pgfault v).run (swap c) = .ret () c' → Faults (swap c') c'' → Faults c c''

/-- What the allocator needs of the heap `h'` that was `h`: its marks, the counts, and that
`free` of a live block unmaps the pages before the last and drops one reference to that. -/
structure Usable (h h' : Heap) (live : List Block) : Prop where
  marks : ∀ p, InHeap p → (h'.uvpt p = some true ↔ h.uvpt p = some true)
  counts : ∀ p, InHeap p → h.uvpt p = some false →
    h'.uvpt p = some false ∧ refOf h' p = refOf h p
  frees : ∀ b ∈ live, (free b.addr).run h' = .ret () (dropped h' b.first b.last)

/-- Parent and child can go on with the heap that the caller `c` of `fork` had. -/
def BothUsable (c : Caller) (h : Heap) (live : List Block) (c' : Caller) : Prop :=
  Usable (heapOf c.own c.bytes h) (heapOf c'.own c'.bytes h) live ∧
  ∃ t, c'.child = some t ∧ Usable (heapOf c.own c.bytes h) (heapOf t c'.bytes h) live

section Heaps

variable {g : Setting} {c₀ c c' : Caller} {w₀ w : UserPte} {h : Heap} {live : List Block}
  {t : PageTable} {bytes bytes' : Nat → Nat → U8} {fresh fresh' p v : Nat} {s : Forker}
  {extra : Nat → Nat}

theorem inHeap_lt (hp : InHeap p) : p < stackPages := by
  obtain ⟨-, hhi⟩ := hp
  unfold stackPages
  omega

theorem inHeap_ne_temp (hp : InHeap p) : p ≠ pftempPage := by
  obtain ⟨hlo, -⟩ := hp
  unfold pftempPage
  omega

theorem Private.marked (hw : Private w) : marked w = cowPte w.page :=
  (if_neg hw.1).trans (if_pos hw.2)

theorem Private.inherited (hw : Private w) : inherited w = some (cowPte w.page) :=
  (if_neg hw.1).trans (if_pos hw.2)

theorem Private.checked (hw : Private w) : ¬ Unchecked w :=
  fun h => h.elim hw.1 (fun hread => hread hw.2)

theorem cowPte_plain {q : Nat} : ¬ HasFlag (cowPte q).perm pteContinued := by
  change ¬ HasFlag (pteCow ||| pteU ||| pteP) pteContinued
  decide

theorem copyPte_plain {q : Nat} : ¬ HasFlag (copyPte q).perm pteContinued := by
  change ¬ HasFlag (pteU ||| pteP ||| pteW) pteContinued
  decide

theorem heapOf_uvpt (hw : t.entry p = some w) :
    (heapOf t bytes h).uvpt p = some (decide (HasFlag w.perm pteContinued)) := by
  change (t.entry p).map _ = _
  rw [hw]
  rfl

/-! ### A heap without marks -/

/-- The heap pages of `c₀`, none of them marked as continued, with the same counts. -/
def Plain (c₀ : Caller) (t : PageTable) (bytes : Nat → Nat → U8) (fresh : Nat) : Prop :=
  ∀ p, InHeap p → (c₀.own.entry p = none ∧ t.entry p = none) ∨
    ∃ w w', c₀.own.entry p = some w ∧ t.entry p = some w' ∧ w'.page < fresh ∧
      ¬ HasFlag w'.perm pteContinued ∧ ∀ o, 4092 ≤ o → bytes w'.page o = c₀.bytes w.page o

/-- Pages that are not used yet may change. -/
theorem Plain.grow (ht : Plain c₀ t bytes fresh) (hle : fresh ≤ fresh')
    (hbytes : ∀ q < fresh, bytes' q = bytes q) : Plain c₀ t bytes' fresh' := by
  intro p hp
  rcases ht p hp with hnone | ⟨w, w', hw, hw', hused, hplain, hsame⟩
  · exact Or.inl hnone
  · refine Or.inr ⟨w, w', hw, hw', Nat.lt_of_lt_of_le hused hle, hplain, fun o ho => ?_⟩
    rw [hbytes w'.page hused]
    exact hsame o ho

/-- The environment that faults gets a page that is not marked either. -/
theorem Plain.fault (ht : Plain c₀ c.own c.bytes c.fresh) (hv : c.own.entry v = some w)
    (hc : Copied v w c c') : Plain c₀ c'.own c'.bytes c'.fresh := by
  have hbytes : ∀ q < c.fresh, c'.bytes q = c.bytes q := fun q hq => hc.bytes q (Nat.ne_of_lt hq)
  have hle : c.fresh ≤ c'.fresh := hc.fresh ▸ Nat.le_succ _
  intro p hp
  rw [hc.entry, Function.update_of_ne (inHeap_ne_temp hp)]
  by_cases heq : p = v
  · subst heq
    rw [Function.update_self]
    rcases ht p hp with ⟨-, hnone⟩ | ⟨w₁, w', hw₁, hw', hused, -, hsame⟩
    · rw [hv] at hnone
      exact absurd hnone (Option.some_ne_none _)
    · obtain rfl : w' = w := Option.some.inj (hw'.symm.trans hv)
      refine Or.inr ⟨w₁, _, hw₁, rfl, ?_, copyPte_plain, fun o ho => ?_⟩
      · rw [hc.fresh]
        exact Nat.lt_succ_self _
      · exact (congrFun (hc.copy (inHeap_ne_temp hp) hused) o).trans (hsame o ho)
  · rw [Function.update_of_ne heq]
    exact ht.grow hle hbytes p hp

/-- Every block lies in one page if and only if no page is marked. -/
theorem plain_iff {h : Heap} (hinv : HeapInv extra h live) :
    (∀ b ∈ live, b.first = b.last) ↔ ∀ p, InHeap p → h.uvpt p ≠ some true := by
  constructor
  · intro hone p hp hmark
    obtain ⟨b, hb, hlo, hhi⟩ := hinv.cont_used p hp hmark
    have := hone b hb
    omega
  · intro hplain b hb
    have hplaced := hinv.placed b hb
    have hle := b.first_le_last
    by_contra hne
    have hlast := hplaced.last_lt
    exact hplain b.first ⟨hplaced.first_le, by omega⟩
      (hplaced.cont b.first (Nat.le_refl _) (by omega))

theorem Plain.usable (ht : Plain c₀ t bytes fresh)
    (hinv : HeapInv extra (heapOf c₀.own c₀.bytes h) live)
    (hone : ∀ b ∈ live, b.first = b.last) :
    Usable (heapOf c₀.own c₀.bytes h) (heapOf t bytes h) live := by
  have hplain := (plain_iff hinv).mp hone
  have hmapped : ∀ p, InHeap p → (heapOf c₀.own c₀.bytes h).uvpt p = some false →
      (heapOf t bytes h).uvpt p = some false := by
    intro p hp hfalse
    rcases ht p hp with ⟨hnone, -⟩ | ⟨w, w', -, hw', -, hno, -⟩
    · change (c₀.own.entry p).map _ = _ at hfalse
      rw [hnone] at hfalse
      exact absurd hfalse.symm (Option.some_ne_none false)
    · rw [heapOf_uvpt hw', decide_eq_false hno]
  refine ⟨fun p hp => iff_of_false (fun htrue => ?_) (hplain p hp), fun p hp hfalse =>
    ⟨hmapped p hp hfalse, word_congr (fun x hlo hhi => ?_)⟩, fun b hb => ?_⟩
  · rcases ht p hp with ⟨-, hnone⟩ | ⟨w, w', -, hw', -, hno, -⟩
    · change (t.entry p).map _ = _ at htrue
      rw [hnone] at htrue
      exact absurd htrue.symm (Option.some_ne_none true)
    · rw [heapOf_uvpt hw', decide_eq_false hno] at htrue
      exact Bool.noConfusion (Option.some.inj htrue)
  · have hpage : x / 4096 = p := by
      unfold refAddr at hlo hhi
      omega
    have hoff : 4092 ≤ x % 4096 := by
      unfold refAddr at hlo hhi
      omega
    change ((t.entry (x / 4096)).map _).getD 0#8 = ((c₀.own.entry (x / 4096)).map _).getD 0#8
    rw [hpage]
    rcases ht p hp with ⟨hnone, hnone'⟩ | ⟨w, w', hw, hw', -, -, hsame⟩
    · rw [hnone, hnone']
      rfl
    · rw [hw, hw']
      exact hsame (x % 4096) hoff
  · have hplaced := hinv.placed b hb
    have hsingle := hone b hb
    exact free_run rfl hplaced.first_le b.first_le_last hplaced.last_lt
      (fun q hlo hhi => by omega) (hmapped b.last hplaced.end_inHeap hplaced.end_mapped)

/-! ### After `fork` -/

/-- The contents of a heap page, as far as the counts go. -/
theorem HeapSpace.same (hs : HeapSpace g c₀ w₀ h live) (hr : Ready g c₀ w₀)
    (hc : Forking g c₀ w₀ v c) (hp : InHeap p) (hw : c₀.own.entry p = some w)
    (hplain : ¬ HasFlag w.perm pteContinued) (o : Nat) (ho : 4092 ≤ o) :
    c.bytes w.page o = c₀.bytes w.page o :=
  hc.bytes w.page (hr.used p w hw) o
    (fun hbelow => by have := hs.counts p hp w hw hbelow.1 hplain; omega)

theorem plain_entry (hplain : ∀ p, InHeap p → (heapOf c₀.own c₀.bytes h).uvpt p ≠ some true)
    (hp : InHeap p) (hw : c₀.own.entry p = some w) : ¬ HasFlag w.perm pteContinued := by
  intro hmark
  exact hplain p hp ((heapOf_uvpt hw).trans (congrArg some (decide_eq_true hmark)))

/-- The heap of the parent. -/
theorem HeapSpace.parent (hs : HeapSpace g c₀ w₀ h live) (hr : Ready g c₀ w₀)
    (hc : Forking g c₀ w₀ stackPages c)
    (hplain : ∀ p, InHeap p → (heapOf c₀.own c₀.bytes h).uvpt p ≠ some true) :
    Plain c₀ c.own c.bytes c.fresh := by
  intro p hp
  by_cases hstack : p = g.stack
  · subst hstack
    have hw := hr.stack
    have hno := plain_entry hplain hp hw
    have hesp := hs.counts _ hp w₀ hw rfl hno
    obtain ⟨w, hown, hused, hpte, hsame⟩ := hc.stack
    refine Or.inr ⟨w₀, w, hw, hown, hused, ?_, fun o ho => hsame o (hesp.trans ho)⟩
    rcases hpte with ⟨habove, -⟩ | ⟨-, rfl | ⟨-, q, -, rfl⟩⟩
    · exact absurd g.stack_hi (Nat.not_lt.mpr habove)
    · rw [(hs.own _ hp w₀ hw).marked]
      exact cowPte_plain
    · exact copyPte_plain
  · have hown := hc.done p (inHeap_lt hp) hstack (inHeap_ne_temp hp)
    cases hw : c₀.own.entry p with
    | none => exact Or.inl ⟨rfl, by rw [hown, hw]; rfl⟩
    | some w =>
        rw [hw, Option.map_some, (hs.own p hp w hw).marked] at hown
        have hno := plain_entry hplain hp hw
        exact Or.inr ⟨w, _, rfl, hown, Nat.lt_of_lt_of_le (hr.used p w hw) hc.fresh, cowPte_plain,
          fun o ho => hs.same hr hc hp hw hno o ho⟩

/-- A heap page of the child, which cannot be missing. -/
theorem HeapSpace.entry (hs : HeapSpace g c₀ w₀ h live) (ht : Filled c₀ stackPages c t)
    (hp : InHeap p) : t.entry p = (c₀.own.entry p).map (fun w => cowPte w.page) := by
  have hentry : t.entry p = (c₀.own.entry p).bind inherited := by
    rcases ht.entry p (inHeap_lt hp) with hentry | ⟨-, -, w, hw, hunchecked⟩
    · exact hentry
    · exact absurd hunchecked (hs.own p hp w hw).checked
  cases hw : c₀.own.entry p with
  | none =>
      rw [hw] at hentry
      exact hentry
  | some w =>
      rw [hw] at hentry
      exact hentry.trans (hs.own p hp w hw).inherited

/-- The heap of the child. -/
theorem HeapSpace.child (hs : HeapSpace g c₀ w₀ h live) (hr : Ready g c₀ w₀)
    (hc : Forking g c₀ w₀ stackPages c) (ht : Filled c₀ stackPages c t)
    (hplain : ∀ p, InHeap p → (heapOf c₀.own c₀.bytes h).uvpt p ≠ some true) :
    Plain c₀ t c.bytes c.fresh := by
  intro p hp
  have hentry := hs.entry ht hp
  cases hw : c₀.own.entry p with
  | none => exact Or.inl ⟨rfl, by rw [hentry, hw]; rfl⟩
  | some w =>
      rw [hw] at hentry
      have hno := plain_entry hplain hp hw
      exact Or.inr ⟨w, _, rfl, hentry, Nat.lt_of_lt_of_le (hr.used p w hw) hc.fresh, cowPte_plain,
        fun o ho => hs.same hr hc hp hw hno o ho⟩

/-- Both heaps are plain, whatever faults. -/
theorem Faults.plain (hf : Faults c c') (hown : Plain c₀ c.own c.bytes c.fresh)
    (hchild : c.child = some t) (ht : Plain c₀ t c.bytes c.fresh) :
    Plain c₀ c'.own c'.bytes c'.fresh ∧
      ∃ t', c'.child = some t' ∧ Plain c₀ t' c'.bytes c'.fresh := by
  induction hf generalizing t with
  | none => exact ⟨hown, t, hchild, ht⟩
  | @own c c₁ c₂ v hrun _ ih =>
      obtain ⟨w, hv, -, hc⟩ := pgfault_ret hrun
      exact ih (hown.fault hv hc) (hc.child.trans hchild) (ht.grow (hc.fresh ▸ Nat.le_succ _)
        (fun q hq => hc.bytes q (Nat.ne_of_lt hq)))
  | @child c c₁ c₂ v hrun _ ih =>
      obtain ⟨w, hv, -, hc⟩ := pgfault_ret hrun
      have hswap : swap c = { c with own := t, child := some c.own } := by
        unfold swap
        rw [hchild]
      have hparent : c₁.child = some c.own := by rw [hc.child, hswap]
      have hback : swap c₁ = { c₁ with own := c.own, child := some c₁.own } := by
        unfold swap
        rw [hparent]
      have hfault : Plain c₀ c₁.own c₁.bytes c₁.fresh := by
        refine Plain.fault ?_ hv hc
        rw [hswap]
        exact ht
      have hgrow : Plain c₀ c.own c₁.bytes c₁.fresh := by
        refine hown.grow ?_ (fun q hq => ?_)
        · rw [hc.fresh, hswap]
          exact Nat.le_succ _
        · rw [hc.bytes q (by rw [hswap]; exact Nat.ne_of_lt hq), hswap]
      rw [hback] at ih
      exact ih hgrow rfl hfault

/-- A heap that is usable when `fork` returns has no block over several pages. -/
theorem HeapSpace.single (hs : HeapSpace g c₀ w₀ h live) (ht : Filled c₀ stackPages c t)
    (husable : BothUsable c₀ h live c) : ∀ b ∈ live, b.first = b.last := by
  obtain ⟨extra, hinv⟩ := hs.heap
  obtain ⟨-, t', ht', husable⟩ := husable
  obtain rfl : t' = t := Option.some.inj (ht'.symm.trans ht.child)
  refine (plain_iff hinv).mpr (fun p hp hmark => ?_)
  have hlost := (husable.marks p hp).mpr hmark
  have hentry := hs.entry ht hp
  cases hw : c₀.own.entry p with
  | none =>
      change (c₀.own.entry p).map _ = _ at hmark
      rw [hw] at hmark
      exact absurd hmark.symm (Option.some_ne_none true)
  | some w =>
      rw [hw] at hentry
      rw [heapOf_uvpt hentry, decide_eq_false cowPte_plain] at hlost
      exact Bool.noConfusion (Option.some.inj hlost)

/-- The heap stays usable in the parent and the child, through all write faults that follow
a `fork`, exactly if no live block is larger than a page. -/
theorem heap_after_fork (hr : Ready g s.caller w₀) (hs : HeapSpace g s.caller w₀ h live) :
    wp (fork g) (orRefused g s.caller (fun _ s' =>
      (∀ c', Faults s'.caller c' → BothUsable s.caller h live c') ↔
        ∀ b ∈ live, b.first = b.last)) s := by
  refine wp_mono (fork_wp hr) ?_ (fun _ => False.elim) (fun _ hstop => hstop)
  rintro r s' ⟨-, -, hc, t, ht⟩
  constructor
  · exact fun hall => hs.single ht (hall s'.caller .none)
  · intro hone c' hf
    obtain ⟨extra, hinv⟩ := hs.heap
    have hplain := (plain_iff hinv).mp hone
    obtain ⟨hown, t', ht', hchild⟩ := hf.plain (hs.parent hr hc hplain) ht.child
      (hs.child hr hc ht hplain)
    exact ⟨hown.usable hinv hone, t', ht', hchild.usable hinv hone⟩

end Heaps

/-! ## A program with one block -/

/-- A block over `k` pages and the beginning of another. -/
def theBlock (k : Nat) : Block := ⟨0x08000000#32, BitVec.ofNat 32 (4096 * k + 4)⟩

/-- The stack, the pages of the block, and nothing else. -/
def blockEntry (k v : Nat) : Option UserPte :=
  if v = stackPages - 1 then some ⟨0, pteP ||| pteU ||| pteW⟩
  else if v = 32768 + k then some ⟨1, pteP ||| pteU ||| pteW⟩
  else if 32768 ≤ v ∧ v < 32768 + k then
    some ⟨v, pteP ||| pteU ||| pteW ||| pteContinued⟩
  else none

def blockTable (k : Nat) (hk : k < 255) : PageTable where
  entry := blockEntry k
  table := fun _ => true
  below := fun v w h => by
    unfold blockEntry stackPages at h
    unfold userPages
    by_contra hge
    rw [if_neg (by omega), if_neg (by omega), if_neg (by omega)] at h
    exact Option.some_ne_none w h.symm
  flags := fun v w h => by
    unfold blockEntry at h
    split at h
    · obtain rfl := Option.some.inj h
      exact (by decide : UserFlags (pteP ||| pteU ||| pteW))
    · split at h
      · obtain rfl := Option.some.inj h
        exact (by decide : UserFlags (pteP ||| pteU ||| pteW))
      · split at h
        · obtain rfl := Option.some.inj h
          exact (by decide : UserFlags (pteP ||| pteU ||| pteW ||| pteContinued))
        · exact absurd h.symm (Option.some_ne_none w)
  tabled := fun _ _ _ => rfl

/-- The program has the block, and `mptr` is behind it. -/
def blockForker (k : Nat) (hk : k < 255) : Forker where
  caller :=
    { own := blockTable k hk
      child := none
      bytes := fun p o => if p = 1 ∧ o = 4092 then 2#8 else 0#8
      fresh := 65536
      memory := fun _ => true
      asked := 0 }
  handler := false
  pushes := 0

def blockHeap (k : Nat) : Heap :=
  ⟨fun _ => none, fun _ => 0#8, BitVec.ofNat 32 (32768 * 4096 + 4096 * k + 4), fun _ => true, 0⟩

section Example

variable {k p v : Nat} {w : UserPte} (hk : k < 255)

theorem blockEntry_stack : blockEntry k (stackPages - 1) = some ⟨0, pteP ||| pteU ||| pteW⟩ :=
  if_pos rfl

include hk in
theorem blockEntry_last : blockEntry k (32768 + k) = some ⟨1, pteP ||| pteU ||| pteW⟩ := by
  unfold blockEntry stackPages
  rw [if_neg (by omega), if_pos rfl]

include hk in
theorem blockEntry_cont (hlo : 32768 ≤ p) (hhi : p < 32768 + k) :
    blockEntry k p = some ⟨p, pteP ||| pteU ||| pteW ||| pteContinued⟩ := by
  unfold blockEntry stackPages
  rw [if_neg (by omega), if_neg (by omega), if_pos ⟨hlo, hhi⟩]

theorem blockEntry_cases (h : blockEntry k v = some w) :
    (v = stackPages - 1 ∧ w = ⟨0, pteP ||| pteU ||| pteW⟩) ∨
    (v = 32768 + k ∧ w = ⟨1, pteP ||| pteU ||| pteW⟩) ∨
    ((32768 ≤ v ∧ v < 32768 + k) ∧ w = ⟨v, pteP ||| pteU ||| pteW ||| pteContinued⟩) := by
  unfold blockEntry at h
  split at h
  · exact Or.inl ⟨‹_›, (Option.some.inj h).symm⟩
  · split at h
    · exact Or.inr (Or.inl ⟨‹_›, (Option.some.inj h).symm⟩)
    · split at h
      · exact Or.inr (Or.inr ⟨‹_›, (Option.some.inj h).symm⟩)
      · exact absurd h.symm (Option.some_ne_none w)

theorem blockForker_ready :
    Ready topSetting (blockForker k hk).caller ⟨0, pteP ||| pteU ||| pteW⟩ where
  stack := blockEntry_stack (k := k)
  write := by
    change HasFlag (pteP ||| pteU ||| pteW) pteW
    decide
  used := fun v w hw => by
    change w.page < 65536
    rcases blockEntry_cases hw with ⟨-, rfl⟩ | ⟨-, rfl⟩ | ⟨hv, rfl⟩
    · exact Nat.zero_lt_succ _
    · exact Nat.lt_of_sub_eq_succ rfl
    · change v < 65536
      omega

include hk in
theorem theBlock_size : (theBlock k).size.toNat = 4096 * k + 4 := by
  change (BitVec.ofNat 32 (4096 * k + 4)).toNat = _
  rw [BitVec.toNat_ofNat]
  omega

include hk in
theorem theBlock_room : (theBlock k).room = 4096 * k + 4 := by
  unfold Block.room
  rw [roundUp_four (by rw [theBlock_size hk]; omega), theBlock_size hk]
  omega

theorem theBlock_addr : (theBlock k).addr.toNat = 32768 * 4096 := by
  change (0x08000000#32).toNat = _
  decide

theorem theBlock_first : (theBlock k).first = 32768 := by
  unfold Block.first
  rw [theBlock_addr]

include hk in
theorem theBlock_last : (theBlock k).last = 32768 + k := by
  unfold Block.last
  rw [theBlock_addr, theBlock_room hk]
  omega

/-- What the allocator sees of the block. -/
theorem block_uvpt_last : (heapOf (blockForker k hk).caller.own (blockForker k hk).caller.bytes
    (blockHeap k)).uvpt (32768 + k) = some false := by
  rw [heapOf_uvpt (blockEntry_last hk)]
  rfl

theorem block_uvpt_cont (hlo : 32768 ≤ p) (hhi : p < 32768 + k) :
    (heapOf (blockForker k hk).caller.own (blockForker k hk).caller.bytes
      (blockHeap k)).uvpt p = some true := by
  have hmark : HasFlag (pteP ||| pteU ||| pteW ||| pteContinued) pteContinued := by decide
  exact (heapOf_uvpt (blockEntry_cont hk hlo hhi)).trans (congrArg some (decide_eq_true hmark))

theorem block_uvpt_cases {m : Bool} (hp : InHeap p)
    (h : (heapOf (blockForker k hk).caller.own (blockForker k hk).caller.bytes
      (blockHeap k)).uvpt p = some m) :
    (p = 32768 + k ∧ m = false) ∨ ((32768 ≤ p ∧ p < 32768 + k) ∧ m = true) := by
  obtain ⟨hlo, hhi⟩ := hp
  by_cases hlast : p = 32768 + k
  · subst hlast
    exact Or.inl ⟨rfl, Option.some.inj (h.symm.trans (block_uvpt_last hk))⟩
  · by_cases hcont : p < 32768 + k
    · exact Or.inr ⟨⟨hlo, hcont⟩, Option.some.inj (h.symm.trans (block_uvpt_cont hk hlo hcont))⟩
    · have hnone : blockEntry k p = none := by
        unfold blockEntry stackPages
        rw [if_neg (by omega), if_neg hlast, if_neg (fun hh => hcont hh.2)]
      change (blockEntry k p).map _ = some m at h
      rw [hnone] at h
      exact absurd h.symm (Option.some_ne_none m)

theorem block_ref : refOf (heapOf (blockForker k hk).caller.own (blockForker k hk).caller.bytes
    (blockHeap k)) (32768 + k) = 2#32 := by
  have hbyte : ∀ i < 4, (heapOf (blockForker k hk).caller.own (blockForker k hk).caller.bytes
      (blockHeap k)).mem (refAddr (32768 + k) + i) = if i = 0 then 2#8 else 0#8 := by
    intro i hi
    have hpage : (refAddr (32768 + k) + i) / 4096 = 32768 + k := by
      unfold refAddr
      omega
    have hoff : (refAddr (32768 + k) + i) % 4096 = 4092 + i := by
      unfold refAddr
      omega
    change ((blockEntry k ((refAddr (32768 + k) + i) / 4096)).map _).getD 0#8 = _
    rw [hpage, hoff, blockEntry_last hk]
    change (if 1 = 1 ∧ 4092 + i = 4092 then 2#8 else 0#8) = _
    exact if_congr (by omega) rfl rfl
  have h0 := hbyte 0 (by omega)
  unfold refOf word
  rw [Nat.add_zero] at h0
  rw [h0, hbyte 1 (by omega), hbyte 2 (by omega), hbyte 3 (by omega)]
  rfl

theorem block_mptr : (heapOf (blockForker k hk).caller.own (blockForker k hk).caller.bytes
    (blockHeap k)).mptr.toNat = 32768 * 4096 + 4096 * k + 4 := by
  change (BitVec.ofNat 32 (32768 * 4096 + 4096 * k + 4)).toNat = _
  rw [BitVec.toNat_ofNat]
  omega

theorem block_placed : Placed (heapOf (blockForker k hk).caller.own
    (blockForker k hk).caller.bytes (blockHeap k)) (theBlock k) where
  fits := by rw [theBlock_size hk, theBlock_room hk]
  lo := Nat.le_of_eq theBlock_addr.symm
  hi := by
    rw [theBlock_addr, theBlock_room hk]
    omega
  aligned := by rw [theBlock_addr]
  onePage := Or.inl (by rw [theBlock_addr])
  cont := fun p hlo hhi => by
    rw [theBlock_last hk] at hhi
    rw [theBlock_first] at hlo
    exact block_uvpt_cont hk hlo hhi
  end_mapped := by
    rw [theBlock_last hk]
    exact block_uvpt_last hk

/-- The page in which the block ends counts the block and `mptr`. -/
theorem block_inv : HeapInv (fun p => if p = 32768 + k then 1 else 0)
    (heapOf (blockForker k hk).caller.own (blockForker k hk).caller.bytes (blockHeap k))
    [theBlock k] where
  ptr := by
    rw [block_mptr]
    omega
  ptr_aligned := by
    rw [block_mptr]
    omega
  ptr_held := fun _ => by
    rw [block_mptr, if_pos (by omega)]
    exact Nat.one_ne_zero
  ptr_after := fun _ b hb _ => by
    obtain rfl := List.mem_singleton.mp hb
    rw [block_mptr, theBlock_addr, theBlock_room hk]
    omega
  placed := fun b hb => by
    obtain rfl := List.mem_singleton.mp hb
    exact block_placed hk
  apart := List.pairwise_singleton _ _
  refs := fun p hp hfalse => by
    rcases block_uvpt_cases hk hp hfalse with ⟨rfl, -⟩ | ⟨-, habs⟩
    · rw [block_ref, blocksIn_cons, if_pos (theBlock_last hk), if_pos rfl]
      exact ⟨rfl, Nat.zero_lt_succ _⟩
    · exact Bool.noConfusion habs
  extra_mapped := fun p hp => by
    by_cases heq : p = 32768 + k
    · subst heq
      exact ⟨⟨by omega, by omega⟩, block_uvpt_last hk⟩
    · exact absurd (if_neg heq) hp
  cont_used := fun p hp htrue => by
    rcases block_uvpt_cases hk hp htrue with ⟨-, habs⟩ | ⟨⟨hlo, hhi⟩, -⟩
    · exact Bool.noConfusion habs
    · exact ⟨theBlock k, List.mem_singleton_self _, theBlock_first.le.trans hlo,
        by rw [theBlock_last hk]; exact hhi⟩

theorem private_of_flags {q : Nat} {perm : U32} (hshare : ¬ HasFlag perm pteShare)
    (hwrite : HasFlag perm pteW) : Private ⟨q, perm⟩ := ⟨hshare, Or.inl hwrite⟩

theorem block_space : HeapSpace topSetting (blockForker k hk).caller
    ⟨0, pteP ||| pteU ||| pteW⟩ (blockHeap k) [theBlock k] where
  heap := ⟨_, block_inv hk⟩
  own := fun p _ w hw => by
    rcases blockEntry_cases hw with ⟨-, rfl⟩ | ⟨-, rfl⟩ | ⟨-, rfl⟩
    · exact private_of_flags (by decide) (by decide)
    · exact private_of_flags (by decide) (by decide)
    · exact private_of_flags (by decide) (by decide)
  counts := fun _ _ _ _ _ _ => by decide

end Example

theorem heap_after_fork_small : ∃ r s', (fork topSetting).run (blockForker 0 (by decide)) =
      .ret r s' ∧
    ∀ c', Faults s'.caller c' →
      BothUsable (blockForker 0 (by decide)).caller (blockHeap 0) [theBlock 0] c' := by
  have hwp := heap_after_fork (blockForker_ready (k := 0) (by decide)) (block_space (by decide))
  obtain ⟨r, s', hrun, hiff⟩ := returns_of_memory hwp topSetting_slot (fun _ => rfl)
  refine ⟨r, s', hrun, hiff.mpr (fun b hb => ?_)⟩
  obtain rfl := List.mem_singleton.mp hb
  rfl

/-- The block of two pages has lost its mark as soon as `fork` returns. -/
theorem not_heap_after_fork : ∃ r s', (fork topSetting).run (blockForker 1 (by decide)) =
      .ret r s' ∧ Faults s'.caller s'.caller ∧
    ¬ BothUsable (blockForker 1 (by decide)).caller (blockHeap 1) [theBlock 1] s'.caller := by
  have hwp := fork_wp (blockForker_ready (k := 1) (by decide))
  obtain ⟨r, s', hrun, -, -, -, t, ht⟩ := returns_of_memory hwp topSetting_slot (fun _ => rfl)
  refine ⟨r, s', hrun, .none, fun husable => ?_⟩
  have hone := (block_space (by decide)).single ht husable _ (List.mem_singleton_self _)
  rw [theBlock_first, theBlock_last (by decide)] at hone
  omega

end Jos.User.Fork

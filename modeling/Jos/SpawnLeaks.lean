import Jos.Dup
import Jos.ProgramHeaders

/-!
# What a failed `spawn` leaves behind

`spawn` opens the program, makes the child and fills it page by page.  Its label `error`
destroys the child and closes the descriptor, but is only reached from `map_segment`;
the page at `UTEMP` is not unmapped on any early return of `map_segment`.
-/

namespace Jos.User

open Programs

/-- The descriptors and mappings of the caller are as before, and there is no child. -/
structure Undone (c c' : Caller) : Prop where
  mappings : c'.own.entry = c.own.entry
  child : c'.child = none

/-- The entry of an open descriptor. -/
def openPte (p : Nat) : UserPte := ⟨p, pteP ||| pteU ||| pteW ||| pteShare⟩

/-- The caller has opened descriptor `i`, with page `p`, and has `u` at `UTEMP`; besides,
its mappings are those of `c₀`. -/
structure Held (c₀ : Caller) (i : Int) (p : Nat) (u : Option UserPte) (c : Caller) : Prop where
  entry : c.own.entry = Function.update
    (Function.update c₀.own.entry (fdPage i) (some (openPte p))) utempPage u
  fresh : c₀.fresh ≤ c.fresh

section Spawn

variable {g : Setting} {c₀ c : Caller} {s : SpawnState} {i : Int} {p : Nat}
  {u : Option UserPte} {perm : U32} {v : Nat}

theorem InTable.ne_utemp (h : InTable i) : fdPage i ≠ utempPage := by
  obtain ⟨hpage, -, -⟩ := h.pages
  unfold utempPage
  omega

theorem Held.open (h : Held c₀ i p u c) (hi : InTable i) :
    c.own.entry (fdPage i) = some (openPte p) := by
  rw [h.entry, Function.update_of_ne hi.ne_utemp, Function.update_self]

theorem Held.withBytes {bytes : Nat → Nat → U8} (h : Held c₀ i p u c) :
    Held c₀ i p u { c with bytes := bytes } := ⟨h.entry, h.fresh⟩

theorem Held.same {c' : Caller} (h : Held c₀ i p u c) (hown : c'.own.entry = c.own.entry)
    (hfresh : c.fresh ≤ c'.fresh) : Held c₀ i p u c' :=
  ⟨hown.trans h.entry, h.fresh.trans hfresh⟩

/-- Another page at `UTEMP`. -/
theorem Held.replace {c' : Caller} {u' : Option UserPte} (h : Held c₀ i p u c)
    (hown : c'.own.entry = Function.update c.own.entry utempPage u')
    (hfresh : c.fresh ≤ c'.fresh) : Held c₀ i p u' c' :=
  ⟨by rw [hown, h.entry, Function.update_idem], h.fresh.trans hfresh⟩

/-! ## The calls -/

theorem ends_needPage {P : Caller → Prop}
    (hP : ∀ c : Caller, P c → P { c with asked := c.asked + 1 }) : Ends P needPage :=
  .bind .get (fun _ => .bind (.modify hP) (fun _ => .pure _))

theorem ends_needTable {P : Caller → Prop} {t : PageTable}
    (hask : ∀ c : Caller, P c → P { c with asked := c.asked + 1 }) :
    Ends P (needTable t v) := by
  unfold needTable
  exact .ite (.pure _) (ends_needPage hask)

/-- What only concerns the own mappings, and pages that were used, is kept by calls that
change the child. -/
theorem ends_pageInsert_child {P : Caller → Prop} {t : PageTable} {w : UserPte}
    {hw : v < userPages ∧ UserFlags w.perm}
    (hask : ∀ c : Caller, P c → P { c with asked := c.asked + 1 })
    (hchild : ∀ (c : Caller) t, P c → P { c with child := some t }) :
    Ends P (pageInsert .child t v w hw) := by
  unfold pageInsert
  exact (ends_needTable hask).bind (fun _ => .ite (.bind (.modify (fun c h => hchild c _ h))
    (fun _ => .pure _)) (.pure _))

theorem ends_alloc_child : Ends (Held c₀ i p u) (sysPageAlloc .child v perm) := by
  have hask : ∀ c : Caller, Held c₀ i p u c → Held c₀ i p u { c with asked := c.asked + 1 } :=
    fun c h => h.same rfl (Nat.le_refl _)
  unfold sysPageAlloc
  refine .bind .get (fun c => ?_)
  cases c.space .child with
  | none => exact .pure _
  | some t =>
      dsimp only
      split
      · refine (ends_needPage hask).bind (fun _ => .ite ?_ (.pure _))
        exact .bind (.modify (fun c h => h.same rfl (Nat.le_succ _)))
          (fun _ => ends_pageInsert_child hask (fun c t h => h.same rfl (Nat.le_refl _)))
      · exact .pure _

theorem ends_map_child {src : Nat} :
    Ends (Held c₀ i p u) (sysPageMap src .child v perm) := by
  have hask : ∀ c : Caller, Held c₀ i p u c → Held c₀ i p u { c with asked := c.asked + 1 } :=
    fun c h => h.same rfl (Nat.le_refl _)
  unfold sysPageMap
  refine .bind .get (fun c => ?_)
  cases c.space .child with
  | none => exact .pure _
  | some t =>
      cases c.own.entry src with
      | none => exact .pure _
      | some w =>
          dsimp only
          split
          · exact .ite (.pure _)
              (ends_pageInsert_child hask (fun c t h => h.same rfl (Nat.le_refl _)))
          · exact .pure _

/-- What does not depend on the contents of pages is kept by stores. -/
theorem ends_storeByte {P : Caller → Prop} {a : U32} {b : U8}
    (hP : ∀ (c : Caller) bytes, P c → P { c with bytes := bytes }) : Ends P (storeByte a b) := by
  unfold storeByte
  refine .bind .get (fun c => ?_)
  cases c.own.entry (pgnum a) with
  | none => exact .stop
  | some w => exact .ite (.modify (fun c h => hP c _ h)) .stop

theorem ends_storeBytes {P : Caller → Prop} {a : U32} {bs : List U8}
    (hP : ∀ (c : Caller) bytes, P c → P { c with bytes := bytes }) :
    Ends P (storeBytes a bs) := by
  induction bs generalizing a with
  | nil => exact .pure _
  | cons b bs ih => exact (ends_storeByte hP).bind (fun _ => ih)

theorem ends_fillStack {P : Caller → Prop} {argv : List (List U8)}
    (hP : ∀ (c : Caller) bytes, P c → P { c with bytes := bytes }) :
    Ends P (fillStack argv) := by
  have hargs : ∀ {a b : U32} {k : Nat} {args : List (List U8)},
      Ends P (storeArgs a k b args) := by
    intro a b k args
    induction args generalizing b k with
    | nil => exact .pure _
    | cons arg args ih =>
        exact (ends_storeBytes hP).bind (fun _ => (ends_storeBytes hP).bind (fun _ => ih))
  unfold fillStack
  exact hargs.bind (fun _ => (ends_storeBytes hP).bind (fun _ =>
    (Ends.when .stop).bind (fun _ => (ends_storeBytes hP).bind (fun _ => ends_storeBytes hP))))

theorem ends_sysExofork : Ends (Held c₀ i p u) (sysExofork g) := by
  unfold sysExofork
  cases g.slot with
  | none => exact .pure _
  | some c =>
      refine (ends_needPage (fun c h => h.same rfl (Nat.le_refl _))).bind (fun _ => ?_)
      exact .ite (.bind (.modify (fun c h => h.same rfl (Nat.le_refl _))) (fun _ => .pure _))
        (.pure _)

/-- A page at `UTEMP`, if there is memory for it. -/
theorem alloc_utemp (h : Held c₀ i p u c) : wp (sysPageAlloc .own utempPage perm)
    (Partial (fun r c' => (r < 0 → Held c₀ i p u c') ∧
      (0 ≤ r → ∃ w, c₀.fresh ≤ w.page ∧ Held c₀ i p (some w) c')) (fun _ => True)) c := by
  refine wp_of_returns (sysPageAlloc_returns rfl) ?_
  rintro r c' (⟨hneg, -, hown, -, hfresh, -⟩ | ⟨hr, hw, k, rfl⟩)
  · exact ⟨fun _ => h.same (congrArg PageTable.entry hown) hfresh,
      fun hle => absurd hneg (Int.not_lt.mpr hle)⟩
  · exact ⟨fun hneg => absurd hr (Int.ne_of_lt hneg),
      fun _ => ⟨_, h.fresh, h.replace rfl (Nat.le_succ _)⟩⟩

theorem unmap_utemp (h : Held c₀ i p u c) : wp (sysPageUnmap utempPage)
    (Partial (fun _ c' => Held c₀ i p none c') (fun _ => True)) c := by
  unfold sysPageUnmap
  rw [if_pos (by decide)]
  exact h.replace rfl (Nat.le_refl _)

/-- Closing the descriptor leaves what is at `UTEMP`. -/
theorem close_held (h : Held c₀ i p u c) (hi : InTable i)
    (hnone : c₀.own.entry (fdPage i) = none) (hfile : ∃ r, g.device p = .other r) :
    wp (close g.device i) (Partial (fun _ c' =>
      c'.own.entry = Function.update c₀.own.entry utempPage u) (fun _ => True)) c := by
  obtain ⟨r, c', hrun, -, hgone, hkept⟩ := close_run g.device c i
  refine wp_of_ret hrun ?_
  have hcloses : ∀ v, Closes g.device c.own.entry i v ↔ v = fdPage i := by
    intro v
    constructor
    · rintro ⟨-, w, hw, hv | ⟨-, hpipe⟩⟩
      · exact hv
      · rw [h.open hi] at hw
        cases hw
        obtain ⟨r, hr⟩ := hfile
        rw [show (openPte p).page = p from rfl, hr] at hpipe
        cases hpipe
    · exact fun hv => ⟨hi, openPte p, h.open hi, Or.inl hv⟩
  change c'.own.entry = _
  funext v
  by_cases hv : v = fdPage i
  · rw [hgone v ((hcloses v).mpr hv), hv, Function.update_of_ne hi.ne_utemp, hnone]
  · rw [hkept v (fun hc => hv ((hcloses v).mp hc)), h.entry]
    by_cases hu : v = utempPage
    · rw [hu, Function.update_self, Function.update_self]
    · rw [Function.update_of_ne hu, Function.update_of_ne hu, Function.update_of_ne hv]

/-! ## The steps of `spawn` -/

/-- The program is open, `u` is at `UTEMP`, and the requests in `l` were refused. -/
def Holding (c₀ : Caller) (i : Int) (p : Nat) (u : Option UserPte) (l : List Refusal)
    (s : SpawnState) : Prop := Held c₀ i p u s.caller ∧ s.refused = l

theorem wp_onCaller {α : Type} {m : Prog Caller α} {R : α → SpawnState → Prop}
    {Q : α → Caller → Prop} (h : wp m (Partial Q (fun _ => True)) s.caller)
    (hR : ∀ a c, Q a c → R a { s with caller := c }) :
    wp (onCaller m) (Partial R (fun _ => True)) s :=
  (wp_zoom _ _ m).mpr (wp_mono h (fun a c hc => hR a c hc) (fun _ ht => ht) (fun _ ht => ht))

/-- A call that keeps what the caller holds. -/
theorem onCaller_ends {α : Type} {m : Prog Caller α} {l : List Refusal}
    (hm : Ends (Held c₀ i p u) m) (h : Holding c₀ i p u l s) :
    wp (onCaller m) (Partial (fun _ s' => Holding c₀ i p u l s') (fun _ => True)) s :=
  wp_onCaller (hm.after h.1) (fun _ _ hc => ⟨hc, h.2⟩)

theorem wp_allocUtemp {l : List Refusal} (h : Holding c₀ i p u l s) :
    wp (onCaller (sysPageAlloc .own utempPage perm))
      (Partial (fun r s' => (r < 0 → Holding c₀ i p u l s') ∧
        (0 ≤ r → ∃ w, c₀.fresh ≤ w.page ∧ Holding c₀ i p (some w) l s')) (fun _ => True)) s := by
  refine wp_onCaller (alloc_utemp h.1) (fun r c hc => ⟨fun hr => ⟨hc.1 hr, h.2⟩, fun hr => ?_⟩)
  obtain ⟨w, hw, hheld⟩ := hc.2 hr
  exact ⟨w, hw, hheld, h.2⟩

theorem wp_unmapUtemp {l : List Refusal} (h : Holding c₀ i p u l s) :
    wp (onCaller (sysPageUnmap utempPage))
      (Partial (fun _ s' => Holding c₀ i p none l s') (fun _ => True)) s :=
  wp_onCaller (unmap_utemp h.1) (fun _ _ hc => ⟨hc, h.2⟩)

theorem wp_refuse {q : Refusal} (h : Holding c₀ i p u [] s) :
    wp (refuse q) (Partial (fun _ s' => Holding c₀ i p u [q] s') (fun _ => True)) s :=
  ⟨h.1, congrArg (· ++ [q]) h.2⟩

/-- A read of the open file is refused, or nothing else happens. -/
theorem wp_readFile {n : Nat} (hi : InTable i) (h : Holding c₀ i p u [] s) :
    wp (readFile g i n) (Partial (fun r s' => Holding c₀ i p u
      (if r.1 < 0 then [.read] else []) s') (fun _ => True)) s := by
  have hlookup := fdLookup_run hi (h.1.open hi)
  unfold readFile
  refine wp_ret_bind (Prog.run_zoom_ret hlookup) ?_
  rw [if_neg (by decide), wp_get_bind, wp_modify_bind]
  dsimp only
  cases g.read s.requests s.offset n with
  | error e =>
      have hneg : e.code.toInt < 0 := by cases e <;> decide
      refine partial_bind (wp_refuse (s := { s with requests := s.requests + 1 }) h)
        (fun _ s' hs' => ?_) (fun _ ht => ht)
      change Holding c₀ i p u (if e.code.toInt < 0 then [.read] else []) s'
      rwa [if_pos hneg]
  | ok bs =>
      refine wp_assert (fun _ => ?_) (fun _ => trivial)
      change Holding c₀ i p u (if (bs.length : Int) < 0 then [.read] else []) _
      rw [if_neg (Int.not_lt.mpr (Int.natCast_nonneg _))]
      exact h

theorem wp_readLoop {k n : Nat} (hi : InTable i) (h : Holding c₀ i p u [] s) :
    wp (readLoop g i k n) (Partial (fun r s' => Holding c₀ i p u
      (if r.1 < 0 then [.read] else []) s') (fun _ => True)) s := by
  induction k generalizing n s with
  | zero => exact h
  | succ k ih =>
      unfold readLoop
      refine wp_ite (fun _ => h) (fun _ => ?_)
      refine partial_bind (wp_readFile hi h) (fun r s' hs' => ?_) (fun _ ht => ht)
      dsimp only
      refine wp_ite (fun hneg => ?_) (fun hnonneg => ?_)
      · exact hs'
      · rw [if_neg hnonneg] at hs'
        refine wp_ite (fun _ => hs') (fun _ => ?_)
        refine partial_bind (ih hs') (fun r' s'' hs'' => ?_) (fun _ ht => ht)
        have hsame : (if r'.1 < 0 then r'.1 else r.2.length + r'.1) < 0 ↔ r'.1 < 0 := by
          split <;> omega
        change Holding c₀ i p u (if (if r'.1 < 0 then r'.1 else r.2.length + r'.1) < 0
          then [.read] else []) s''
        simpa only [hsame] using hs''

theorem wp_seek {o : U32} (hi : InTable i) (h : Holding c₀ i p u [] s) :
    wp (seek i o) (Partial (fun r s' => r = 0 ∧ Holding c₀ i p u [] s') (fun _ => True)) s := by
  have hlookup := fdLookup_run hi (h.1.open hi)
  unfold seek
  refine wp_ret_bind (Prog.run_zoom_ret hlookup) ?_
  rw [if_neg (by decide), wp_modify_bind]
  exact ⟨rfl, h⟩

/-- How `map_segment` ends.  A page for the child that is refused finds `UTEMP` as it was,
a read that is refused leaves a new page there. -/
inductive SegmentEnds (c₀ : Caller) (i : Int) (p : Nat) : Int → SpawnState → Prop
  | done {r : Int} {s : SpawnState} : 0 ≤ r → Holding c₀ i p none [] s →
      SegmentEnds c₀ i p r s
  | noPage {r : Int} {s : SpawnState} : r < 0 → Holding c₀ i p none [.segmentPage] s →
      SegmentEnds c₀ i p r s
  | noRead {r : Int} {s : SpawnState} {w : UserPte} : r < 0 → c₀.fresh ≤ w.page →
      Holding c₀ i p (some w) [.read] s → SegmentEnds c₀ i p r s

theorem wp_mapPage {va filesz fileoffset o : U32} (hi : InTable i)
    (h : Holding c₀ i p none [] s) :
    wp (mapPage g i va filesz fileoffset perm o)
      (Partial (SegmentEnds c₀ i p) (fun _ => True)) s := by
  unfold mapPage
  refine wp_ite (fun _ => ?_) (fun _ => ?_)
  · refine partial_bind (onCaller_ends ends_alloc_child h) (fun r s' hs' => ?_) (fun _ ht => ht)
    rw [wp_bind]
    refine wp_when (fun hneg => ?_) (fun hnonneg => SegmentEnds.done (Int.not_lt.mp hnonneg) hs')
    exact wp_mono (wp_refuse hs') (fun _ _ hs => SegmentEnds.noPage hneg hs) (fun _ ht => ht)
      (fun _ ht => ht)
  · refine partial_bind (wp_allocUtemp h) (fun r s₁ hs₁ => ?_) (fun _ ht => ht)
    refine wp_ite (fun hneg => ?_) (fun hnonneg => ?_)
    · exact partial_bind (wp_refuse (hs₁.1 hneg)) (fun _ _ hs => SegmentEnds.noPage hneg hs)
        (fun _ ht => ht)
    obtain ⟨w, hw, hheld⟩ := hs₁.2 (Int.not_lt.mp hnonneg)
    refine partial_bind (wp_seek hi hheld) (fun r s₂ hs₂ => ?_) (fun _ ht => ht)
    rw [hs₂.1, if_neg (by decide)]
    refine partial_bind (wp_readLoop hi hs₂.2) (fun r s₃ hs₃ => ?_) (fun _ ht => ht)
    have hkept : Ends (Held c₀ i p (some w)) (storeBytes utemp r.2) :=
      ends_storeBytes (fun _ _ => Held.withBytes)
    refine partial_bind (onCaller_ends hkept hs₃) (fun _ s₄ hs₄ => ?_) (fun _ ht => ht)
    refine wp_ite (fun hneg => ?_) (fun hnonneg => ?_)
    · rw [if_pos hneg] at hs₄
      exact .noRead hneg hw hs₄
    rw [if_neg hnonneg] at hs₄
    refine partial_bind (onCaller_ends ends_map_child hs₄) (fun r s₅ hs₅ => ?_)
      (fun _ ht => ht)
    rw [wp_bind]
    refine wp_when (fun _ => trivial) (fun _ => ?_)
    dsimp only
    refine partial_bind (wp_unmapUtemp hs₅) (fun _ s₆ hs₆ => ?_) (fun _ ht => ht)
    exact SegmentEnds.done (Int.le_refl 0) hs₆

theorem wp_mapPages {va memsz filesz fileoffset o : U32} {k : Nat} (hi : InTable i)
    (h : Holding c₀ i p none [] s) :
    wp (mapPages g i va memsz filesz fileoffset perm k o)
      (Partial (SegmentEnds c₀ i p) (fun _ => True)) s := by
  induction k generalizing o s with
  | zero => trivial
  | succ k ih =>
      unfold mapPages
      refine wp_ite (fun _ => .done (Int.le_refl 0) h) (fun _ => ?_)
      refine partial_bind (wp_mapPage hi h) (fun r s' hs' => ?_) (fun _ ht => ht)
      refine wp_ite (fun _ => hs') (fun hnonneg => ?_)
      cases hs' with
      | done _ hs => exact ih hs
      | noPage hneg _ => exact absurd hneg hnonneg
      | noRead hneg _ _ => exact absurd hneg hnonneg

theorem wp_loadHeader {b : Binary} {o : Nat} {l : List Refusal} (h : Holding c₀ i p u l s) :
    wp (loadHeader g b o) (Partial (fun _ s' => Holding c₀ i p u l s') (fun _ => True)) s := by
  unfold loadHeader
  rw [wp_modify_bind]
  refine wp_ite (fun _ => h) (fun _ => ?_)
  cases g.stray o with
  | none => trivial
  | some ph => exact h

theorem wp_mapSegments {b : Binary} {j n : Nat} (hi : InTable i)
    (h : Holding c₀ i p none [] s) :
    wp (mapSegments g i b j n) (Partial (SegmentEnds c₀ i p) (fun _ => True)) s := by
  induction n generalizing j s with
  | zero => exact .done (Int.le_refl 0) h
  | succ n ih =>
      unfold mapSegments
      refine partial_bind (wp_loadHeader h) (fun ph s₁ hs₁ => ?_) (fun _ ht => ht)
      refine wp_ite (fun _ => ih hs₁) (fun _ => ?_)
      refine partial_bind (wp_mapPages hi hs₁) (fun r s₂ hs₂ => ?_) (fun _ ht => ht)
      refine wp_ite (fun _ => hs₂) (fun hnonneg => ?_)
      cases hs₂ with
      | done _ hs => exact ih hs
      | noPage hneg _ => exact absurd hneg hnonneg
      | noRead hneg _ _ => exact absurd hneg hnonneg

theorem initStack_refused {argv : List (List U8)} (hfit : argvStore argv - 8#32 < utemp) :
    initStack argv = (do
      refuse .arguments
      pure (-eNoMem, 0#32)) := by
  unfold initStack
  exact if_pos hfit

/-- `init_stack` fails with the arguments or the page for the stack refused. -/
theorem initStack_gives {argv : List (List U8)} :
    Gives (Holding c₀ i p u []) (initStack argv) (fun r s' =>
      (r.1 < 0 → ∃ u' q, q ≠ .segmentPage ∧ Holding c₀ i p u' [q] s') ∧
      (0 ≤ r.1 → Holding c₀ i p none [] s')) := by
  refine Gives.of_wp (X := fun _ => True) (fun s h => ?_)
  have hfails : ∀ (r : Int) (esp : U32) u' q s', q ≠ .segmentPage → r < 0 →
      Holding c₀ i p u' [q] s' → wp (pure (r, esp)) (Partial (fun r s' =>
        (r.1 < 0 → ∃ u' q, q ≠ .segmentPage ∧ Holding c₀ i p u' [q] s') ∧
        (0 ≤ r.1 → Holding c₀ i p none [] s')) (fun _ => True)) s' :=
    fun r esp u' q s' hq hr hs' =>
      ⟨fun _ => ⟨u', q, hq, hs'⟩, fun hle => absurd hr (Int.not_lt.mpr hle)⟩
  cases Decidable.em (argvStore argv - 8#32 < utemp) with
  | inl hfit =>
      rw [initStack_refused hfit]
      refine partial_bind (wp_refuse h) (fun _ s' hs' => ?_) (fun _ ht => ht)
      exact hfails (-eNoMem) 0#32 u .arguments s' (by decide) (by decide) hs'
  | inr hfit =>
      unfold initStack
      rw [if_neg hfit]
      refine partial_bind (wp_allocUtemp h) (fun r s₁ hs₁ => ?_) (fun _ ht => ht)
      refine wp_ite (fun hneg => ?_) (fun hnonneg => ?_)
      · exact partial_bind (wp_refuse (hs₁.1 hneg))
          (fun _ s' hs' => hfails _ _ _ _ s' (by decide) hneg hs') (fun _ ht => ht)
      obtain ⟨w, -, hheld⟩ := hs₁.2 (Int.not_lt.mp hnonneg)
      refine partial_bind (onCaller_ends (ends_fillStack (fun _ _ => Held.withBytes)) hheld)
        (fun _ s₂ hs₂ => ?_) (fun _ ht => ht)
      refine partial_bind (onCaller_ends ends_map_child hs₂) (fun r s₃ hs₃ => ?_) (fun _ ht => ht)
      refine wp_ite (fun hneg => ?_) (fun _ => ?_)
      · refine partial_bind (wp_refuse hs₃) (fun _ s₄ hs₄ => ?_) (fun _ ht => ht)
        exact partial_bind (wp_unmapUtemp hs₄)
          (fun _ s' hs' => hfails _ _ _ _ s' (by decide) hneg hs') (fun _ ht => ht)
      · exact partial_bind (wp_unmapUtemp hs₃)
          (fun _ _ hs => ⟨fun hr => absurd hr (Int.lt_irrefl 0), fun _ => hs⟩) (fun _ ht => ht)

/-! ## The header -/

theorem fdAlloc_run {k n : Nat} : ∃ x, (fdAlloc k n).run c = .ret x c ∧
    ∀ j, x = some j → (k ≤ j ∧ j < k + n) ∧ c.own.entry (fdPage j) = none := by
  induction n generalizing k with
  | zero => exact ⟨none, rfl, fun j hj => nomatch hj⟩
  | succ n ih =>
      unfold fdAlloc
      rw [Prog.run_bind_ret (Prog.run_get c)]
      cases hentry : c.own.entry (fdPage k) with
      | none =>
          refine ⟨some k, rfl, fun j hj => ?_⟩
          cases hj
          exact ⟨⟨Nat.le_refl k, by omega⟩, hentry⟩
      | some w =>
          obtain ⟨x, hrun, hx⟩ := ih (k := k + 1)
          refine ⟨x, hrun, fun j hj => ?_⟩
          obtain ⟨hj, hnone⟩ := hx j hj
          exact ⟨by omega, hnone⟩

/-- The descriptor arrives. -/
theorem wp_receiveFd {k : Nat} (hk : InTable k) :
    wp (receiveFd k p) (Partial (fun _ c' => Held c k p (c.own.entry utempPage) c')
      (fun _ => True)) c := by
  unfold receiveFd
  rw [wp_get_bind]
  split
  · rename_i hpage
    rw [wp_bind]
    refine wp_of_returns pageInsert_returns (fun r c' hc' => ?_)
    refine wp_when (fun _ => trivial) (fun hr => ?_)
    obtain ⟨n, ⟨hneg, -⟩ | ⟨-, rfl⟩⟩ := hc'
    · exact absurd hneg hr
    · refine ⟨?_, Nat.le_refl _⟩
      symm
      refine Function.update_eq_iff.mpr ⟨?_, fun _ _ => rfl⟩
      have hkept : (c.own.fill (fdPage k) (openPte p) hpage).entry utempPage =
          c.own.entry utempPage := PageTable.fill_of_ne hk.ne_utemp.symm
      exact hkept.symm
  · trivial

/-- `open`, which fails without a trace. -/
theorem wp_openFile {path : List U8} (hnew : s.refused = []) :
    wp (openFile g path) (Partial (fun r s' =>
      (r < 0 → s'.caller.own.entry = s.caller.own.entry) ∧
      (0 ≤ r → InTable r ∧ s.caller.own.entry (fdPage r) = none ∧
        ∃ p, (∃ q, g.device p = .other q) ∧
          Holding s.caller r p (s.caller.own.entry utempPage) [] s')) (fun _ => True)) s := by
  have hfails : ∀ r : Int, r < 0 → wp (pure r) (Partial (fun r s' =>
      (r < 0 → s'.caller.own.entry = s.caller.own.entry) ∧
      (0 ≤ r → InTable r ∧ s.caller.own.entry (fdPage r) = none ∧
        ∃ p, (∃ q, g.device p = .other q) ∧
          Holding s.caller r p (s.caller.own.entry utempPage) [] s')) (fun _ => True)) s :=
    fun r hr => ⟨fun _ => rfl, fun hle => absurd hr (Int.not_lt.mpr hle)⟩
  unfold openFile
  refine wp_ite (fun _ => hfails _ (by decide)) (fun _ => ?_)
  obtain ⟨x, hrun, hx⟩ := fdAlloc_run (c := s.caller) (k := 0) (n := maxFd)
  refine wp_ret_bind (Prog.run_zoom_ret hrun) ?_
  cases x with
  | none => exact hfails _ (by decide)
  | some k =>
      obtain ⟨hk, hnone⟩ := hx k rfl
      have hin : InTable k := by
        rw [Nat.zero_add] at hk
        exact ⟨Int.natCast_nonneg k, Int.ofNat_lt.mpr hk.2⟩
      dsimp only
      cases hopened : g.opened with
      | error r =>
          have hclose : (close g.device k).run s.caller = .ret (-eInval) s.caller := by
            unfold close
            rw [Prog.run_bind_ret (fdLookup_fails (Or.inr hnone)), if_pos (by decide)]
            rfl
          exact wp_ret_bind (Prog.run_zoom_ret hclose) (hfails r (g.opened_neg r hopened))
      | ok p =>
          refine partial_bind (wp_onCaller (R := fun _ s' => Holding s.caller k p
            (s.caller.own.entry utempPage) [] s') (wp_receiveFd hin) (fun _ c hc => ⟨hc, hnew⟩))
            (fun _ s' hs' => ?_) (fun _ ht => ht)
          exact ⟨fun hneg => absurd hneg (Int.not_lt.mpr hin.1),
            fun _ => ⟨hin, hnone, p, g.opened_file p hopened, hs'⟩⟩

/-- The header is read with the program open, or `spawn` fails without a trace. -/
theorem wp_readHeader {path : List U8} (hnew : s.refused = []) :
    wp (readHeader g path) (Partial (fun x s' =>
      match x with
      | .error _ => s'.caller.own.entry = s.caller.own.entry
      | .ok (fd, _) => InTable fd ∧ s.caller.own.entry (fdPage fd) = none ∧
          ∃ p, (∃ q, g.device p = .other q) ∧
            Holding s.caller fd p (s.caller.own.entry utempPage) [] s') (fun _ => True)) s := by
  unfold readHeader
  refine partial_bind (wp_openFile hnew) (fun fd s₁ hs₁ => ?_) (fun _ ht => ht)
  refine wp_ite (fun hneg => hs₁.1 hneg) (fun hnonneg => ?_)
  obtain ⟨hin, hnone, p, hfile, hheld⟩ := hs₁.2 (Int.not_lt.mp hnonneg)
  refine partial_bind (wp_readLoop hin hheld) (fun r s₂ hs₂ => ?_) (fun _ ht => ht)
  dsimp only
  refine wp_ite (fun _ => ?_) (fun hgood => ?_)
  · refine partial_bind (wp_onCaller (R := fun _ s' =>
      s'.caller.own.entry = s.caller.own.entry) (close_held hs₂.1 hin hnone hfile)
      (fun _ c hc => ?_)) (fun _ s₃ hs₃ => hs₃) (fun _ ht => ht)
    rw [hc, Function.update_eq_self]
  · have hread : ¬ r.1 < 0 := by
      obtain ⟨hlen, -⟩ := not_or.mp hgood
      rw [not_not.mp hlen]
      decide
    rw [if_neg hread] at hs₂
    exact ⟨hin, hnone, p, hfile, hs₂⟩

/-- There is no child. -/
def Childless (c : Caller) : Prop := c.child = none

theorem childless_onCaller {α : Type} {m : Prog Caller α} (hm : Ends Childless m) :
    Ends (fun s : SpawnState => Childless s.caller) (onCaller m) :=
  Ends.component hm (fun _ _ => rfl)

theorem childless_fdLookup {fd : Int} : Ends Childless (fdLookup fd) := by
  unfold fdLookup
  refine .ite (.bind .get (fun c => ?_)) (.pure _)
  cases c.own.entry (fdPage fd) with
  | none => exact .pure _
  | some w => exact .pure _

theorem childless_unmap : Ends Childless (sysPageUnmap v) := by
  unfold sysPageUnmap
  exact .ite (.bind (.modify (fun _ h => h)) (fun _ => .pure _)) (.pure _)

theorem childless_close (fd : Int) : Ends Childless (close g.device fd) := by
  unfold close
  refine childless_fdLookup.bind (fun _ => .ite (.pure _) (.bind .get (fun c => ?_)))
  cases c.own.entry (fdPage fd) with
  | none => exact .pure _
  | some w =>
      dsimp only [fdClose]
      cases g.device w.page with
      | pipe =>
          exact .bind (childless_unmap.bind (fun _ => childless_unmap))
            (fun _ => childless_unmap.bind (fun _ => .pure _))
      | other r =>
          exact .bind (.pure _) (fun _ => childless_unmap.bind (fun _ => .pure _))

theorem childless_fdAlloc {k n : Nat} : Ends Childless (fdAlloc k n) := by
  intro c hc
  obtain ⟨x, hrun, -⟩ := fdAlloc_run (c := c) (k := k) (n := n)
  rw [hrun]
  exact hc

theorem childless_receiveFd {k : Nat} : Ends Childless (receiveFd k p) := by
  unfold receiveFd
  refine .bind .get (fun c => ?_)
  split
  · unfold pageInsert
    refine .bind ?_ (fun _ => .when .stop)
    exact (ends_needTable (fun _ h => h)).bind (fun _ =>
      .ite (.bind (.modify (fun _ h => h)) (fun _ => .pure _)) (.pure _))
  · exact .stop

theorem childless_readLoop {fd : Int} {k n : Nat} :
    Ends (fun s : SpawnState => Childless s.caller) (readLoop g fd k n) := by
  induction k generalizing n with
  | zero => exact .pure _
  | succ k ih =>
      have hread : Ends (fun s : SpawnState => Childless s.caller) (readFile g fd n) := by
        unfold readFile
        refine (childless_onCaller childless_fdLookup).bind (fun _ => .ite (.pure _)
          (.bind .get (fun s => .bind (.modify (fun _ h => h)) (fun _ => ?_))))
        cases g.read s.requests s.offset n with
        | error e => exact .bind (.modify (fun _ h => h)) (fun _ => .pure _)
        | ok bs =>
            exact (Ends.when .stop).bind (fun _ =>
              .bind (.modify (fun _ h => h)) (fun _ => .pure _))
      unfold readLoop
      exact .ite (.pure _) (hread.bind (fun _ => .ite (.pure _)
        (.ite (.pure _) (ih.bind (fun _ => .pure _)))))

/-- Up to the header, there is no child. -/
theorem childless_readHeader (path : List U8) :
    Ends (fun s : SpawnState => Childless s.caller) (readHeader g path) := by
  have hopen : Ends (fun s : SpawnState => Childless s.caller) (openFile g path) := by
    unfold openFile
    refine .ite (.pure _) ((childless_onCaller childless_fdAlloc).bind (fun x => ?_))
    cases x with
    | none => exact .pure _
    | some k =>
        cases g.opened with
        | error r => exact (childless_onCaller (childless_close _)).bind (fun _ => .pure _)
        | ok p =>
            exact (childless_onCaller childless_receiveFd).bind (fun _ =>
              .bind (.modify (fun _ h => h)) (fun _ => .pure _))
  unfold readHeader
  exact hopen.bind (fun _ => .ite (.pure _) (childless_readLoop.bind (fun _ =>
    .ite ((childless_onCaller (childless_close _)).bind (fun _ => .pure _)) (.pure _))))

/-- How `spawn` fails once it has the header. -/
inductive ImageFails (c₀ : Caller) (i : Int) (s : SpawnState) : Prop
  | early {p : Nat} {u : Option UserPte} {q : Refusal} : q ≠ .segmentPage →
      Holding c₀ i p u [q] s → ImageFails c₀ i s
  | noPage : s.caller.own.entry = Function.update c₀.own.entry utempPage none →
      s.caller.child = none → s.refused = [.segmentPage] → ImageFails c₀ i s
  | noRead {w : UserPte} : c₀.fresh ≤ w.page →
      s.caller.own.entry = Function.update c₀.own.entry utempPage (some w) →
      s.refused = [.read] → ImageFails c₀ i s

/-- Label `error` of `spawn`. -/
theorem wp_error {l : List Refusal} {r : Int} (h : Holding c₀ i p u l s) (hi : InTable i)
    (hnone : c₀.own.entry (fdPage i) = none) (hfile : ∃ q, g.device p = .other q) :
    wp (do
      onCaller sysEnvDestroy
      let _ ← onCaller (close g.device i)
      pure r) (Partial (fun _ s' =>
        s'.caller.own.entry = Function.update c₀.own.entry utempPage u ∧
        s'.caller.child = none ∧ s'.refused = l) (fun _ => True)) s := by
  have hdestroyed : Held c₀ i p u { s.caller with child := none } := h.1.same rfl (Nat.le_refl _)
  have hgone := childless_close (g := g) i { s.caller with child := none } rfl
  obtain ⟨r', c', hrun, -⟩ := close_run g.device { s.caller with child := none } i
  rw [hrun] at hgone
  refine wp_modify_bind.mpr (wp_ret_bind (Prog.run_zoom_ret hrun) ?_)
  exact ⟨wp_ret (close_held hdestroyed hi hnone hfile) hrun, hgone, h.2⟩

theorem spawnImage_gives {b : Binary} {argv : List (List U8)} (hi : InTable i)
    (hnone : c₀.own.entry (fdPage i) = none) (hfile : ∃ q, g.device p = .other q) :
    Gives (Holding c₀ i p u []) (spawnImage g i b argv)
      (fun r s' => r < 0 → ImageFails c₀ i s') := by
  refine Gives.of_wp (X := fun _ => True) (fun s h => ?_)
  have hstack : Gives (Holding c₀ i p u []) (initStack argv) _ := initStack_gives
  unfold spawnImage
  -- the loops are not to be unfolded
  generalize initStack argv = stack at hstack ⊢
  generalize copySharedPages = copy
  refine partial_bind (onCaller_ends ends_sysExofork h) (fun child s₁ hs₁ => ?_) (fun _ ht => ht)
  refine wp_ite (fun _ => ?_) (fun hchild => ?_)
  · exact partial_bind (wp_refuse hs₁)
      (fun _ s₂ hs₂ => fun _ => ImageFails.early (by decide) hs₂) (fun _ ht => ht)
  refine hstack.bind hs₁ (fun r s₂ hs₂ => ?_)
  dsimp only
  refine wp_ite (fun hneg => fun _ => ?_) (fun hnonneg => ?_)
  · obtain ⟨u', q, hq, hheld⟩ := hs₂.1 hneg
    exact .early hq hheld
  refine partial_bind (wp_mapSegments hi (hs₂.2 (Int.not_lt.mp hnonneg)))
    (fun r s₃ hs₃ => ?_) (fun _ ht => ht)
  refine wp_ite (fun hneg => ?_) (fun _ => ?_)
  · cases hs₃ with
    | done hr _ => exact absurd hneg (Int.not_lt.mpr hr)
    | noPage _ hheld =>
        exact wp_mono (wp_error hheld hi hnone hfile)
          (fun _ _ h _ => .noPage h.1 h.2.1 h.2.2) (fun _ ht => ht) (fun _ ht => ht)
    | noRead _ hw hheld =>
        exact wp_mono (wp_error hheld hi hnone hfile)
          (fun _ _ h _ => .noRead hw h.1 h.2.2) (fun _ ht => ht) (fun _ ht => ht)
  · have hany : ∀ {α : Type} {m : Prog SpawnState α} {s : SpawnState},
        wp m (Partial (fun _ _ => True) (fun _ => True)) s :=
      wp_of_always (fun _ _ => trivial) (fun _ => trivial) (fun _ => trivial)
    refine partial_bind hany (fun _ s₄ _ => partial_bind hany (fun _ s₅ _ => ?_)
      (fun _ ht => ht)) (fun _ ht => ht)
    exact fun hneg => absurd hneg hchild

end Spawn

/-- A failed `spawn` leaves nothing behind exactly if it failed before it had the header,
or nothing was at `UTEMP` and only pages for the segments were refused. -/
theorem failure_undone_iff {g : Setting} {path : List U8} {argv : List (List U8)}
    {s s' : SpawnState} {r : Int} (hrun : (spawn g path argv).run s = .ret r s') (hneg : r < 0)
    (hchild : s.caller.child = none) (hnew : s.refused = [])
    (hpages : ∀ v w, s.caller.own.entry v = some w → w.page < s.caller.fresh) :
    Undone s.caller s'.caller ↔
      (∃ e s₁, (readHeader g path).run s = .ret (.error e) s₁) ∨
      (s.caller.own.entry utempPage = none ∧ ∀ q, q ∈ s'.refused → q = .segmentPage) := by
  unfold spawn at hrun
  obtain ⟨x, s₁, hfirst, hrest⟩ := Prog.bind_ret_iff.mp hrun
  have hheader := wp_ret (wp_readHeader hnew) hfirst
  cases x with
  | error e =>
      cases hrest
      have hkept := childless_readHeader (g := g) path s hchild
      rw [hfirst] at hkept
      exact ⟨fun _ => Or.inl ⟨_, _, hfirst⟩, fun _ => ⟨hheader, hkept⟩⟩
  | ok x =>
      obtain ⟨fd, bs⟩ := x
      dsimp only at hrest
      obtain ⟨hin, hnone, p, hfile, hheld⟩ := hheader
      have hnoerror : ¬ ∃ e s₁, (readHeader g path).run s = .ret (.error e) s₁ := by
        rintro ⟨e, s₂, herror⟩
        rw [hfirst] at herror
        cases herror
      rw [or_iff_right hnoerror]
      have hfails : ImageFails s.caller fd s' :=
        spawnImage_gives hin hnone hfile s₁ hheld r s' hrest hneg
      constructor
      · intro h
        have hmap := h.mappings
        cases hfails with
        | early hq hheld' =>
            have hopen := hheld'.1.open hin
            rw [hmap, hnone] at hopen
            cases hopen
        | noPage hentry _ hrefused =>
            refine ⟨?_, fun q hq => ?_⟩
            · rw [← hmap, hentry, Function.update_self]
            · rw [hrefused] at hq
              exact List.mem_singleton.mp hq
        | @noRead w hw hentry _ =>
            have hhere : s.caller.own.entry utempPage = some w := by
              rw [← hmap, hentry, Function.update_self]
            exact absurd (hpages _ _ hhere) (Nat.not_lt.mpr hw)
      · rintro ⟨hutemp, hall⟩
        cases hfails with
        | @early p u q hq hheld' =>
            exact absurd (hall q (by rw [hheld'.2]; exact List.mem_singleton_self q)) hq
        | noPage hentry hgone _ =>
            refine ⟨?_, hgone⟩
            rw [hentry, ← hutemp, Function.update_eq_self]
        | noRead _ _ hrefused =>
            have hread := hall .read (by rw [hrefused]; exact List.mem_singleton_self _)
            cases hread

/-! ## No environment is free -/

/-- A file that passes for a program, and no free environment. -/
def crowdedSetting : Setting where
  device := fun _ => .other 0
  opened := .ok 5
  opened_neg := straySetting.opened_neg
  opened_file := straySetting.opened_file
  read := fun _ _ n => .ok (strayImage.take n)
  slot := none
  slot_pos := fun _ h => nomatch h
  stray := fun _ => none

/-- The descriptor stays open. -/
theorem crowdedSetting_run : ∃ r s', (spawn crowdedSetting [] []).run freshSpawn = .ret r s' ∧
    r < 0 ∧ (s'.caller.own.entry (fdPage 0)).isSome = true := by
  have h : (match (spawn crowdedSetting [] []).run freshSpawn with
      | .ret r s' => decide (r < 0) && (s'.caller.own.entry (fdPage 0)).isSome
      | _ => false) = true := by decide +kernel
  cases hrun : (spawn crowdedSetting [] []).run freshSpawn with
  | exit s' => simp [hrun] at h
  | stop s' => simp [hrun] at h
  | ret r s' =>
      rw [hrun, Bool.and_eq_true] at h
      exact ⟨r, s', rfl, of_decide_eq_true h.1, h.2⟩

theorem failure_undone_iff_crowded :
    ∃ r s', (spawn crowdedSetting [] []).run freshSpawn = .ret r s' ∧ r < 0 ∧
      (Undone freshSpawn.caller s'.caller ↔
        (∃ e s₁, (readHeader crowdedSetting []).run freshSpawn = .ret (.error e) s₁) ∨
        (freshSpawn.caller.own.entry utempPage = none ∧
          ∀ q, q ∈ s'.refused → q = .segmentPage)) := by
  obtain ⟨r, s', hrun, hneg, -⟩ := crowdedSetting_run
  exact ⟨r, s', hrun, hneg, failure_undone_iff hrun hneg rfl rfl (fun _ _ h => nomatch h)⟩

theorem not_failure_undone : ¬ ∀ (g : Setting) (path : List U8) (argv : List (List U8))
    (s s' : SpawnState) (r : Int), (spawn g path argv).run s = .ret r s' → r < 0 →
    s.caller.child = none → s.refused = [] →
    (∀ v w, s.caller.own.entry v = some w → w.page < s.caller.fresh) →
    Undone s.caller s'.caller := by
  intro hall
  obtain ⟨r, s', hrun, hneg, hopen⟩ := crowdedSetting_run
  have hundone := hall crowdedSetting [] [] freshSpawn s' r hrun hneg rfl rfl
    (fun _ _ h => nomatch h)
  rw [hundone.mappings] at hopen
  cases hopen

end Jos.User

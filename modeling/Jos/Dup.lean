import Jos.UserCalls

/-!
# `dup`

A descriptor is two pages, and `dup` maps the two pages of the old descriptor at those
of the new one, after closing it.  It does not look at the number of the new
descriptor, nor whether it is the old one.
-/

namespace Jos.User

open Programs

/-- Descriptor `i` is as it was. -/
def SameFd (m m' : Space) (i : Int) : Prop :=
  m' (fdPage i) = m (fdPage i) ∧ m' (dataPage i) = m (dataPage i)

/-- What `dup` is for: `m` is the address space before, `m'` the one after. -/
structure Duplicated (m m' : Space) (old new r : Int) : Prop where
  returns : 0 ≤ new → new < maxFd → 0 ≤ r → r = new ∧
    m'.page (fdPage new) = m.page (fdPage old) ∧
    m'.page (dataPage new) = m.page (dataPage old) ∧
    ∀ i : Int, 0 ≤ i → i < maxFd → (i ≠ new ∨ i = old) → SameFd m m' i
  fails : 0 ≤ new → new < maxFd → r < 0 → m' (fdPage new) = none ∧
    ∀ i : Int, 0 ≤ i → i < maxFd → (i ≠ new ∨ i = old) → SameFd m m' i
  outside : ¬ (0 ≤ new ∧ new < maxFd) → r < 0 ∧ m' = m

/-- The entry that `dup` makes for an entry. -/
def copied (w : UserPte) : UserPte := ⟨w.page, w.perm &&& pteSyscall⟩

/-- The descriptor tables for which `dup` does what it is for. -/
inductive DupFits (device : Nat → Device) (m : Space) (old new : Int) : Prop where
  /-- Another descriptor of the table, whose data page goes or is replaced. -/
  | inside : 0 ≤ new → new < maxFd → new ≠ old →
      (m (dataPage old) ≠ none ∨ m (dataPage new) = none ∨
        ∃ w, m (fdPage new) = some w ∧ device w.page = .pipe) → DupFits device m old new
  /-- A number outside of the table whose pages are not mapped, one of them above
  `UTOP`. -/
  | refused : ¬ (0 ≤ new ∧ new < maxFd) →
      (userPages ≤ fdPage new ∨ m (dataPage old) ≠ none ∧ userPages ≤ dataPage new) →
      m (fdPage new) = none → m (dataPage new) = none → DupFits device m old new
  /-- A negative number whose pages are duplicates already. -/
  | again : new < 0 → m (fdPage new) = (m (fdPage old)).map copied →
      (m (dataPage old) ≠ none → m (dataPage new) = (m (dataPage old)).map copied) →
      DupFits device m old new

section Runs

variable {device : Nat → Device} {s : Caller} {src dst v : Nat} {w : UserPte} {perm : U32}
  {old new i r : Int}

/-! ## The calls -/

/-- A call leaves the memory of the machine alone, and the page tables it finds. -/
structure Later (s s' : Caller) : Prop where
  memory : s'.memory = s.memory
  table : ∀ k, s.own.table k = true → s'.own.table k = true

theorem Later.refl : Later s s := ⟨rfl, fun _ h => h⟩

theorem Later.trans {s' s'' : Caller} (h : Later s s') (h' : Later s' s'') : Later s s'' :=
  ⟨h'.memory.trans h.memory, fun k hk => h'.table k (h.table k hk)⟩

theorem sysPageUnmap_run : ∃ r s', (sysPageUnmap v).run s = .ret r s' ∧ Later s s' ∧
    s'.own.entry = Function.update s.own.entry v none := by
  by_cases hv : v < userPages
  · refine ⟨0, { s with own := s.own.clear v }, ?_, ⟨rfl, fun _ h => h⟩, rfl⟩
    unfold sysPageUnmap
    rw [if_pos hv]
    rfl
  · have hnone : s.own.entry v = none := by
      by_contra hne
      obtain ⟨w, hw⟩ := Option.ne_none_iff_exists'.mp hne
      exact hv (s.own.below v w hw)
    refine ⟨-eInval, s, ?_, .refl, ?_⟩
    · unfold sysPageUnmap
      rw [if_neg hv]
      rfl
    · rw [← hnone, Function.update_eq_self]

/-- `page_insert` in the own address space. -/
theorem pageInsert_run (hw : v < userPages ∧ UserFlags w.perm) :
    ∃ r s', (pageInsert .own s.own v w hw).run s = .ret r s' ∧ Later s s' ∧
      ((r = 0 ∧ s'.own.entry = Function.update s.own.entry v (some w)) ∨
        (r = -eNoMem ∧ s.memory s.asked = false ∧ s.own.table (v / 1024) = false ∧
          s'.own = s.own)) := by
  have hgrows : ∀ k, s.own.table k = true → (s.own.fill v w hw).table k = true := by
    intro k hk
    change Function.update s.own.table (v / 1024) true k = true
    by_cases hslot : k = v / 1024
    · rw [hslot, Function.update_self]
    · rw [Function.update_of_ne hslot]
      exact hk
  cases htab : s.own.table (v / 1024) with
  | true =>
      refine ⟨0, s.setSpace (s.own.fill v w hw) .own, ?_, ⟨rfl, hgrows⟩, Or.inl ⟨rfl, rfl⟩⟩
      unfold pageInsert needTable
      rw [htab]
      rfl
  | false =>
      cases hmem : s.memory s.asked with
      | true =>
          refine ⟨0, { s with asked := s.asked + 1, own := s.own.fill v w hw }, ?_,
            ⟨rfl, hgrows⟩, Or.inl ⟨rfl, rfl⟩⟩
          unfold pageInsert needTable needPage
          rw [htab]
          simp [Prog.run_bind, hmem, Caller.setSpace]
      | false =>
          refine ⟨-eNoMem, { s with asked := s.asked + 1 }, ?_, ⟨rfl, fun _ h => h⟩,
            Or.inr ⟨rfl, rfl, rfl, rfl⟩⟩
          unfold pageInsert needTable needPage
          rw [htab]
          simp [Prog.run_bind, hmem]

theorem userFlags_copied (h : UserFlags w.perm) : UserFlags (copied w).perm := by
  have hmask : pteSyscall &&& (pteU ||| pteP) = pteU ||| pteP := by decide
  unfold UserFlags copied at *
  rw [BitVec.and_assoc, hmask, h]

theorem copied_write (h : ¬ HasFlag w.perm pteW) : ¬ HasFlag (copied w).perm pteW := by
  intro hw
  refine h ?_
  unfold HasFlag copied at *
  intro hzero
  refine hw ?_
  rw [BitVec.and_assoc, BitVec.and_comm pteSyscall, ← BitVec.and_assoc, hzero,
    BitVec.zero_and]

variable (dst) in
/-- `sys_page_map` of an own page, with the flags that it has. -/
theorem sysPageMap_run (hsrc : s.own.entry src = some w) :
    ∃ r s', (sysPageMap src .own dst (w.perm &&& pteSyscall)).run s = .ret r s' ∧ Later s s' ∧
      ((r = 0 ∧ dst < userPages ∧
          s'.own.entry = Function.update s.own.entry dst (some (copied w))) ∨
        (r < 0 ∧ (dst < userPages → s.memory s.asked = false ∧
          s.own.table (dst / 1024) = false) ∧ s'.own = s.own)) := by
  have hflags := userFlags_copied (s.own.flags src w hsrc)
  have hrun : (sysPageMap src .own dst (w.perm &&& pteSyscall)).run s =
      (if hw : dst < userPages ∧ UserFlags (w.perm &&& pteSyscall) then
        if ¬ HasFlag w.perm pteW ∧ HasFlag (w.perm &&& pteSyscall) pteW then pure (-eInval)
        else pageInsert .own s.own dst ⟨w.page, w.perm &&& pteSyscall⟩ hw
      else pure (-eInval) : Prog Caller Int).run s := by
    unfold sysPageMap
    rw [Prog.run_bind_ret (Prog.run_get s)]
    simp only [Caller.space, hsrc]
  rw [hrun]
  by_cases hdst : dst < userPages
  · rw [dif_pos ⟨hdst, hflags⟩, if_neg (fun hh => copied_write hh.1 hh.2)]
    obtain ⟨r, s', hins, hlater, ⟨rfl, hentry⟩ | ⟨rfl, hmem, htab, hown⟩⟩ :=
      pageInsert_run (s := s) (w := copied w) ⟨hdst, hflags⟩
    · exact ⟨0, s', hins, hlater, Or.inl ⟨rfl, hdst, hentry⟩⟩
    · exact ⟨_, s', hins, hlater, Or.inr ⟨by decide, fun _ => ⟨hmem, htab⟩, hown⟩⟩
  · rw [dif_neg (fun hh => hdst hh.1)]
    exact ⟨-eInval, s, rfl, .refl, Or.inr ⟨by decide, fun hh => absurd hh hdst, rfl⟩⟩

theorem fdLookup_run (h : 0 ≤ i ∧ i < maxFd) (hopen : s.own.entry (fdPage i) = some w) :
    (fdLookup i).run s = .ret 0 s := by
  unfold fdLookup
  rw [if_pos h, Prog.run_bind_ret (Prog.run_get s)]
  simp [hopen]

theorem fdLookup_fails (h : ¬ (0 ≤ i ∧ i < maxFd) ∨ s.own.entry (fdPage i) = none) :
    (fdLookup i).run s = .ret (-eInval) s := by
  unfold fdLookup
  split
  · rename_i hin
    rw [Prog.run_bind_ret (Prog.run_get s), h.resolve_left (not_not_intro hin)]
    rfl
  · rfl

/-- The pages of descriptor `i` that `close` unmaps. -/
def Closes (device : Nat → Device) (m : Space) (i : Int) (v : Nat) : Prop :=
  (0 ≤ i ∧ i < maxFd) ∧ ∃ w, m (fdPage i) = some w ∧
    (v = fdPage i ∨ v = dataPage i ∧ device w.page = .pipe)

variable (device s i) in
theorem fdClose_run (p : Nat) : ∃ r s', (fdClose device i p).run s = .ret r s' ∧ Later s s' ∧
    (∀ v, (v = fdPage i ∨ v = dataPage i ∧ device p = .pipe) → s'.own.entry v = none) ∧
    ∀ v, ¬ (v = fdPage i ∨ v = dataPage i ∧ device p = .pipe) →
      s'.own.entry v = s.own.entry v := by
  unfold fdClose
  cases hdev : device p with
  | pipe =>
      obtain ⟨r₁, s₁, hrun₁, hl₁, he₁⟩ := sysPageUnmap_run (s := s) (v := fdPage i)
      obtain ⟨r₂, s₂, hrun₂, hl₂, he₂⟩ := sysPageUnmap_run (s := s₁) (v := dataPage i)
      obtain ⟨r₃, s₃, hrun₃, hl₃, he₃⟩ := sysPageUnmap_run (s := s₂) (v := fdPage i)
      have hpipe : (devpipeClose i).run s = .ret r₂ s₂ := by
        unfold devpipeClose
        rw [Prog.run_bind_ret hrun₁, hrun₂]
      refine ⟨r₂, s₃, ?_, hl₁.trans (hl₂.trans hl₃), fun v hv => ?_, fun v hv => ?_⟩
      · rw [Prog.run_bind_ret hpipe, Prog.run_bind_ret hrun₃]
        rfl
      · rw [he₃, he₂, he₁]
        rcases hv with rfl | ⟨rfl, -⟩
        · rw [Function.update_self]
        · by_cases heq : dataPage i = fdPage i
          · rw [heq, Function.update_self]
          · rw [Function.update_of_ne heq, Function.update_self]
      · rw [not_or, not_and_or] at hv
        rw [he₃, he₂, he₁, Function.update_of_ne hv.1,
          Function.update_of_ne (hv.2.resolve_right (not_not_intro rfl)),
          Function.update_of_ne hv.1]
  | other r =>
      obtain ⟨r₁, s₁, hrun₁, hl₁, he₁⟩ := sysPageUnmap_run (s := s) (v := fdPage i)
      refine ⟨r, s₁, ?_, hl₁, fun v hv => ?_, fun v hv => ?_⟩
      · rw [Prog.run_bind_ret (Prog.run_pure r s), Prog.run_bind_ret hrun₁]
        rfl
      · rw [he₁, hv.resolve_right (fun hh => nomatch hh.2), Function.update_self]
      · rw [he₁, Function.update_of_ne (fun hh => hv (Or.inl hh))]

variable (device s i) in
theorem close_run : ∃ r s', (close device i).run s = .ret r s' ∧ Later s s' ∧
    (∀ v, Closes device s.own.entry i v → s'.own.entry v = none) ∧
    ∀ v, ¬ Closes device s.own.entry i v → s'.own.entry v = s.own.entry v := by
  by_cases hin : (0 ≤ i ∧ i < maxFd) ∧ s.own.entry (fdPage i) ≠ none
  · obtain ⟨w, hw⟩ := Option.ne_none_iff_exists'.mp hin.2
    obtain ⟨r, s', hrun, hlater, hgone, hkept⟩ :=
      fdClose_run device s i w.page
    have hcloses : ∀ v, Closes device s.own.entry i v ↔
        (v = fdPage i ∨ v = dataPage i ∧ device w.page = .pipe) := by
      intro v
      constructor
      · rintro ⟨-, w', hw', hv⟩
        rw [hw] at hw'
        cases hw'
        exact hv
      · exact fun hv => ⟨hin.1, w, hw, hv⟩
    refine ⟨r, s', ?_, hlater, fun v hv => hgone v ((hcloses v).mp hv),
      fun v hv => hkept v (fun hh => hv ((hcloses v).mpr hh))⟩
    unfold close
    rw [Prog.run_bind_ret (fdLookup_run hin.1 hw), if_neg (by decide),
      Prog.run_bind_ret (Prog.run_get s), hw]
    exact hrun
  · have hnone : ∀ v, ¬ Closes device s.own.entry i v := by
      rintro v ⟨hrange, w, hw, -⟩
      exact hin ⟨hrange, by rw [hw]; exact Option.some_ne_none w⟩
    refine ⟨-eInval, s, ?_, .refl, fun v hv => absurd hv (hnone v), fun _ _ => rfl⟩
    have hfails : ¬ (0 ≤ i ∧ i < maxFd) ∨ s.own.entry (fdPage i) = none := by
      by_cases hrange : 0 ≤ i ∧ i < maxFd
      · exact Or.inr (not_not.mp (fun hh => hin ⟨hrange, hh⟩))
      · exact Or.inl hrange
    unfold close
    rw [Prog.run_bind_ret (fdLookup_fails hfails), if_pos (by decide)]
    rfl

variable (s new r) in
theorem dupErr_run : ∃ s', (dupErr new r).run s = .ret r s' ∧ Later s s' ∧
    s'.own.entry = Function.update (Function.update s.own.entry (fdPage new) none)
      (dataPage new) none := by
  obtain ⟨r₁, s₁, hrun₁, hl₁, he₁⟩ := sysPageUnmap_run (s := s) (v := fdPage new)
  obtain ⟨r₂, s₂, hrun₂, hl₂, he₂⟩ := sysPageUnmap_run (s := s₁) (v := dataPage new)
  refine ⟨s₂, ?_, hl₁.trans hl₂, by rw [he₂, he₁]⟩
  unfold dupErr
  rw [Prog.run_bind_ret hrun₁, Prog.run_bind_ret hrun₂]
  rfl

/-! ## The two mappings -/

/-- There is no memory for the page table that page number `v` needs, or it is not
below `UTOP`. -/
def NoRoom (s : Caller) (v : Nat) : Prop :=
  v < userPages → (∃ n, s.memory n = false) ∧ s.own.table (v / 1024) = false

theorem NoRoom.earlier {s' : Caller} (h : NoRoom s' v) (hlater : Later s s') : NoRoom s v := by
  intro hv
  obtain ⟨hmem, htab⟩ := h hv
  rw [hlater.memory] at hmem
  refine ⟨hmem, Bool.eq_false_iff.mpr (fun hold => ?_)⟩
  rw [hlater.table _ hold] at htab
  cases htab

theorem fdPage_ne_dataPage : fdPage i ≠ dataPage i := by
  unfold fdPage dataPage
  omega

theorem perm_some (h : s.own.entry v = some w) : s.perm v = w.perm &&& pteSyscall := by
  unfold Caller.perm
  rw [h]

variable (s old new) in
/-- The last mapping of `dup`, and what it does if it fails. -/
theorem dupFd_run : ∃ r s', (dupFd old new).run s = .ret r s' ∧
    ((r = new ∧ fdPage new < userPages ∧ ∃ w, s.own.entry (fdPage old) = some w ∧
        s'.own.entry = Function.update s.own.entry (fdPage new) (some (copied w))) ∨
      (r < 0 ∧ (s.own.entry (fdPage old) = none ∨ NoRoom s (fdPage new)) ∧
        s'.own.entry = Function.update (Function.update s.own.entry (fdPage new) none)
          (dataPage new) none)) := by
  cases hold : s.own.entry (fdPage old) with
  | none =>
      obtain ⟨s', herr, -, hentry⟩ := dupErr_run s new (-eInval)
      have hmap : (sysPageMap (fdPage old) .own (fdPage new) (s.perm (fdPage old))).run s =
          .ret (-eInval) s := by
        unfold sysPageMap
        rw [Prog.run_bind_ret (Prog.run_get s)]
        simp only [Caller.space, hold]
        rfl
      refine ⟨-eInval, s', ?_, Or.inr ⟨by decide, Or.inl rfl, hentry⟩⟩
      unfold dupFd
      rw [Prog.run_bind_ret (Prog.run_get s), Prog.run_bind_ret hmap, if_pos (by decide)]
      exact herr
  | some w =>
      obtain ⟨r₁, s₁, hmap, -, hcase⟩ := sysPageMap_run (fdPage new) hold
      have hrun : (dupFd old new).run s =
          (if r₁ < 0 then dupErr new r₁ else pure new : Prog Caller Int).run s₁ := by
        unfold dupFd
        rw [Prog.run_bind_ret (Prog.run_get s), perm_some hold, Prog.run_bind_ret hmap]
      rw [hrun]
      rcases hcase with ⟨rfl, hlt, hentry⟩ | ⟨hneg, hroom, hown⟩
      · rw [if_neg (by decide)]
        exact ⟨new, s₁, rfl, Or.inl ⟨rfl, hlt, w, rfl, hentry⟩⟩
      · obtain ⟨s', herr, -, hentry⟩ := dupErr_run s₁ new r₁
        rw [if_pos hneg]
        rw [hown] at hentry
        exact ⟨r₁, s', herr, Or.inr ⟨hneg, Or.inr (fun hv =>
          ⟨⟨_, (hroom hv).1⟩, (hroom hv).2⟩), hentry⟩⟩

/-- How `dup` ends, from the address space `m` that closing the new descriptor has
left. -/
inductive DupEnds (s : Caller) (m : Space) (old new : Int) : Int → Space → Prop where
  | fails {r : Int} : r < 0 →
      (m (fdPage old) = none ∨ NoRoom s (fdPage new) ∨
        m (dataPage old) ≠ none ∧ NoRoom s (dataPage new)) →
      DupEnds s m old new r (Function.update (Function.update m (fdPage new) none)
        (dataPage new) none)
  | file {w : UserPte} : m (dataPage old) = none → fdPage new < userPages →
      m (fdPage old) = some w →
      DupEnds s m old new new (Function.update m (fdPage new) (some (copied w)))
  | data {w d : UserPte} : m (dataPage old) = some d → dataPage new < userPages →
      fdPage new < userPages →
      Function.update m (dataPage new) (some (copied d)) (fdPage old) = some w →
      DupEnds s m old new new (Function.update
        (Function.update m (dataPage new) (some (copied d))) (fdPage new) (some (copied w)))

/-- The data page that was just mapped is gone again. -/
theorem update_data (m : Space) (x : Option UserPte) :
    Function.update (Function.update (Function.update m (dataPage new) x) (fdPage new) none)
      (dataPage new) none =
    Function.update (Function.update m (fdPage new) none) (dataPage new) none := by
  funext v
  by_cases hd : v = dataPage new
  · rw [hd, Function.update_self, Function.update_self]
  · rw [Function.update_of_ne hd, Function.update_of_ne hd]
    by_cases hf : v = fdPage new
    · rw [hf, Function.update_self, Function.update_self]
    · rw [Function.update_of_ne hf, Function.update_of_ne hf, Function.update_of_ne hd]

variable (device s new) in
theorem dup_run (hold : 0 ≤ old ∧ old < maxFd) (hopen : s.own.entry (fdPage old) = some w) :
    ∃ r s' m, (dup device old new).run s = .ret r s' ∧
      (∀ v, Closes device s.own.entry new v → m v = none) ∧
      (∀ v, ¬ Closes device s.own.entry new v → m v = s.own.entry v) ∧
      DupEnds s m old new r s'.own.entry := by
  obtain ⟨r₁, s₁, hclose, hlater, hgone, hkept⟩ :=
    close_run device s new
  have hrun : (dup device old new).run s =
      (if (s₁.own.entry (dataPage old)).isSome then do
        let r ← sysPageMap (dataPage old) .own (dataPage new) (s₁.perm (dataPage old))
        if r < 0 then dupErr new r else dupFd old new
      else dupFd old new : Prog Caller Int).run s₁ := by
    unfold dup
    rw [Prog.run_bind_ret (fdLookup_run hold hopen), if_neg (by decide),
      Prog.run_bind_ret hclose, Prog.run_bind_ret (Prog.run_get s₁)]
  rw [hrun]
  cases hdata : s₁.own.entry (dataPage old) with
  | none =>
      rw [if_neg (by simp)]
      obtain ⟨r, s', hfd, ⟨rfl, hlt, x, hx, hentry⟩ | ⟨hneg, hwhy, hentry⟩⟩ :=
        dupFd_run s₁ old new
      · refine ⟨_, s', s₁.own.entry, hfd, hgone, hkept, ?_⟩
        rw [hentry]
        exact .file hdata hlt hx
      · refine ⟨r, s', s₁.own.entry, hfd, hgone, hkept, ?_⟩
        rw [hentry]
        exact .fails hneg (hwhy.imp_right (fun hh => Or.inl (hh.earlier hlater)))
  | some d =>
      rw [if_pos (by simp), perm_some hdata]
      obtain ⟨r₂, s₂, hmap, hlater₂, hcase⟩ := sysPageMap_run (dataPage new) hdata
      rw [Prog.run_bind_ret hmap]
      rcases hcase with ⟨rfl, hlt₂, hentry₂⟩ | ⟨hneg, hroom, hown⟩
      · rw [if_neg (by decide)]
        obtain ⟨r, s', hfd, ⟨rfl, hlt, x, hx, hentry⟩ | ⟨hneg, hwhy, hentry⟩⟩ :=
          dupFd_run s₂ old new
        · refine ⟨_, s', s₁.own.entry, hfd, hgone, hkept, ?_⟩
          rw [hentry, hentry₂]
          rw [hentry₂] at hx
          exact .data hdata hlt₂ hlt hx
        · refine ⟨r, s', s₁.own.entry, hfd, hgone, hkept, ?_⟩
          rw [hentry, hentry₂, update_data]
          refine .fails hneg (hwhy.imp (fun hnone => ?_)
            (fun hh => Or.inl (hh.earlier (hlater.trans hlater₂))))
          rw [hentry₂] at hnone
          by_cases heq : fdPage old = dataPage new
          · rw [heq, Function.update_self] at hnone
            cases hnone
          · rwa [Function.update_of_ne heq] at hnone
      · rw [if_pos hneg]
        obtain ⟨s', herr, -, hentry⟩ := dupErr_run s₂ new r₂
        refine ⟨r₂, s', s₁.own.entry, herr, hgone, hkept, ?_⟩
        rw [hentry, hown]
        refine .fails hneg (Or.inr (Or.inr ⟨by simp [hdata], ?_⟩))
        have hnoRoom : NoRoom s₁ (dataPage new) :=
          fun hv => ⟨⟨_, (hroom hv).1⟩, (hroom hv).2⟩
        exact hnoRoom.earlier hlater

/-! ## The table -/

/-- The number is one of the table. -/
def InTable (i : Int) : Prop := 0 ≤ i ∧ i < maxFd

theorem InTable.pages (h : InTable i) : fdPage i = 0xD0000 + i.toNat ∧
    dataPage i = 0xD0020 + i.toNat ∧ i.toNat < 32 := by
  obtain ⟨hlow, hhigh⟩ := h
  have hmax : ((maxFd : Nat) : Int) = 32 := rfl
  unfold fdPage dataPage
  omega

theorem InTable.ne {j : Int} (h : InTable i) (h' : InTable j) (hne : i ≠ j) :
    fdPage i ≠ fdPage j ∧ dataPage i ≠ dataPage j ∧ fdPage i ≠ dataPage j ∧
      dataPage i ≠ fdPage j := by
  obtain ⟨hf, hd, hlt⟩ := h.pages
  obtain ⟨hf', hd', hlt'⟩ := h'.pages
  have hlow := h.1
  have hlow' := h'.1
  omega

variable (device) in
/-- Nothing of another descriptor is closed. -/
theorem not_closes (m : Space) {j : Int} (h : InTable i) (hne : i ≠ j) :
    ¬ Closes device m j (fdPage i) ∧ ¬ Closes device m j (dataPage i) := by
  constructor
  · rintro ⟨hin, -, -, hv | ⟨hv, -⟩⟩
    · exact (h.ne hin hne).1 hv
    · exact (h.ne hin hne).2.2.1 hv
  · rintro ⟨hin, -, -, hv | ⟨hv, -⟩⟩
    · exact (h.ne hin hne).2.2.2 hv
    · exact (h.ne hin hne).2.1 hv

/-- The table has its page table as soon as a descriptor is open. -/
theorem InTable.room {j : Int} (h : InTable i) (hj : InTable j)
    (hopen : s.own.entry (fdPage j) = some w) :
    ¬ NoRoom s (fdPage i) ∧ ¬ NoRoom s (dataPage i) := by
  obtain ⟨hf, hd, hlt⟩ := h.pages
  obtain ⟨hf', -, hlt'⟩ := hj.pages
  have htab := s.own.tabled _ w hopen
  have hslot : fdPage j / 1024 = 832 := by omega
  have husers : userPages = 0xEEC00 := rfl
  rw [hslot] at htab
  constructor
  · intro hno
    have hfalse := (hno (by omega)).2
    rw [show fdPage i / 1024 = 832 by omega, htab] at hfalse
    cases hfalse
  · intro hno
    have hfalse := (hno (by omega)).2
    rw [show dataPage i / 1024 = 832 by omega, htab] at hfalse
    cases hfalse

/-- A page that is mapped has room. -/
theorem not_noRoom (hv : s.own.entry v = some w) : ¬ NoRoom s v := by
  intro hno
  have hfalse := (hno (s.own.below v w hv)).2
  rw [s.own.tabled v w hv] at hfalse
  cases hfalse

/-! ## When `dup` does what it is for -/

variable (new) in
/-- Two pages of an address space after `dup` has mapped them. -/
theorem update_pages (m : Space) (x y : Option UserPte) :
    Function.update (Function.update m (dataPage new) x) (fdPage new) y (fdPage new) = y ∧
    Function.update (Function.update m (dataPage new) x) (fdPage new) y (dataPage new) = x ∧
    ∀ v, v ≠ fdPage new → v ≠ dataPage new →
      Function.update (Function.update m (dataPage new) x) (fdPage new) y v = m v := by
  refine ⟨Function.update_self _ _ _, ?_, fun v hf hd => ?_⟩
  · rw [Function.update_of_ne fdPage_ne_dataPage.symm, Function.update_self]
  · rw [Function.update_of_ne hf, Function.update_of_ne hd]

/-- The pages of another descriptor after both mappings. -/
theorem sameFd_update {m m₀ : Space} {x y : Option UserPte} (hi : InTable i)
    (hnew : InTable new) (hne : i ≠ new)
    (hkept : ∀ v, ¬ Closes device m new v → m₀ v = m v) :
    SameFd m (Function.update (Function.update m₀ (dataPage new) x) (fdPage new) y) i := by
  obtain ⟨hff, hdd, hfd, hdf⟩ := hi.ne hnew hne
  obtain ⟨hf, hd⟩ := not_closes device m hi hne
  obtain ⟨-, -, hrest⟩ := update_pages new m₀ x y
  exact ⟨(hrest _ hff hfd).trans (hkept _ hf), (hrest _ hdf hdd).trans (hkept _ hd)⟩

theorem page_copied {m : Space} (h : m v = some w) : some (copied w).page = m.page v := by
  unfold Space.page copied
  rw [h]
  rfl

/-- Another descriptor of the table. -/
theorem duplicated_inside {m : Space} (hold : InTable old) (hnew : InTable new)
    (hne : new ≠ old) (hopen : s.own.entry (fdPage old) = some w)
    (hdata : s.own.entry (dataPage old) ≠ none ∨ s.own.entry (dataPage new) = none ∨
      ∃ w, s.own.entry (fdPage new) = some w ∧ device w.page = .pipe)
    (hgone : ∀ v, Closes device s.own.entry new v → m v = none)
    (hkept : ∀ v, ¬ Closes device s.own.entry new v → m v = s.own.entry v)
    {m' : Space} (hends : DupEnds s m old new r m') :
    Duplicated s.own.entry m' old new r := by
  obtain ⟨hfo, hdo⟩ := not_closes device s.own.entry hold hne.symm
  obtain ⟨hroomF, hroomD⟩ := hnew.room hold hopen
  obtain ⟨-, hdd, hfd, -⟩ := hold.ne hnew hne.symm
  have hneg : ¬ new < 0 := not_lt.mpr hnew.1
  have hsame : ∀ i : Int, (i ≠ new ∨ i = old) → i ≠ new := by
    rintro i (hi | rfl)
    · exact hi
    · exact hne.symm
  cases hends with
  | fails _ hwhy =>
      rcases hwhy with hnone | hroom | ⟨-, hroom⟩
      · rw [hkept _ hfo, hopen] at hnone
        cases hnone
      · exact absurd hroom hroomF
      · exact absurd hroom hroomD
  | @file x hnone _ hx =>
      rw [hkept _ hfo] at hx
      rw [hkept _ hdo] at hnone
      have hupdate : Function.update m (fdPage new) (some (copied x)) =
          Function.update (Function.update m (dataPage new) (m (dataPage new))) (fdPage new)
            (some (copied x)) := by rw [Function.update_eq_self]
      rw [hupdate]
      obtain ⟨hf, hd, -⟩ := update_pages new m (m (dataPage new)) (some (copied x))
      have hfree : m (dataPage new) = none := by
        by_cases hcl : Closes device s.own.entry new (dataPage new)
        · exact hgone _ hcl
        · rw [hkept _ hcl]
          refine (hdata.resolve_left (not_not_intro hnone)).resolve_right ?_
          rintro ⟨y, hy, hpipe⟩
          exact hcl ⟨hnew, y, hy, Or.inr ⟨rfl, hpipe⟩⟩
      refine ⟨fun _ _ _ => ⟨rfl, ?_, ?_, fun i hlow hhigh hi =>
        sameFd_update ⟨hlow, hhigh⟩ hnew (hsame i hi) hkept⟩, fun _ _ hlt => absurd hlt hneg,
        fun hh => absurd hnew hh⟩
      · rw [← page_copied hx]
        unfold Space.page
        rw [hf]
        rfl
      · unfold Space.page
        rw [hd, hfree, hnone]
  | @data x d hd _ _ hx =>
      rw [hkept _ hdo] at hd
      rw [Function.update_of_ne hfd, hkept _ hfo] at hx
      obtain ⟨hf, hdat, -⟩ := update_pages new m (some (copied d)) (some (copied x))
      refine ⟨fun _ _ _ => ⟨rfl, ?_, ?_, fun i hlow hhigh hi =>
        sameFd_update ⟨hlow, hhigh⟩ hnew (hsame i hi) hkept⟩, fun _ _ hlt => absurd hlt hneg,
        fun hh => absurd hnew hh⟩
      · rw [← page_copied hx]
        unfold Space.page
        rw [hf]
        rfl
      · rw [← page_copied hd]
        unfold Space.page
        rw [hdat]
        rfl

/-- A number outside of the table that is refused, and leaves nothing behind. -/
theorem duplicated_refused {m : Space} (hnew : ¬ InTable new)
    (hrefused : userPages ≤ fdPage new ∨
      s.own.entry (dataPage old) ≠ none ∧ userPages ≤ dataPage new)
    (hfd : s.own.entry (fdPage new) = none) (hdata : s.own.entry (dataPage new) = none)
    (hsame : m = s.own.entry) {m' : Space} (hends : DupEnds s m old new r m') :
    Duplicated s.own.entry m' old new r := by
  subst hsame
  have hout : ∀ {P : Prop}, 0 ≤ new → new < maxFd → P :=
    fun hlow hhigh => absurd ⟨hlow, hhigh⟩ hnew
  refine ⟨fun hlow hhigh => hout hlow hhigh, fun hlow hhigh => hout hlow hhigh, fun _ => ?_⟩
  cases hends with
  | fails hneg _ =>
      refine ⟨hneg, funext (fun v => ?_)⟩
      by_cases hd : v = dataPage new
      · rw [hd, Function.update_self, hdata]
      · rw [Function.update_of_ne hd]
        by_cases hf : v = fdPage new
        · rw [hf, Function.update_self, hfd]
        · rw [Function.update_of_ne hf]
  | file hnone hlt _ =>
      rcases hrefused with hge | ⟨hsome, -⟩
      · omega
      · exact absurd hnone hsome
  | data _ hltD hltF _ => omega

/-- A negative number whose pages are duplicates already. -/
theorem duplicated_again {m : Space} (hneg : new < 0)
    (hopen : s.own.entry (fdPage old) = some w)
    (hfd : s.own.entry (fdPage new) = (s.own.entry (fdPage old)).map copied)
    (hdata : s.own.entry (dataPage old) ≠ none →
      s.own.entry (dataPage new) = (s.own.entry (dataPage old)).map copied)
    (hsame : m = s.own.entry) {m' : Space} (hends : DupEnds s m old new r m') :
    Duplicated s.own.entry m' old new r := by
  subst hsame
  have hout : ∀ {P : Prop}, 0 ≤ new → P := fun hlow => absurd hneg (not_lt.mpr hlow)
  refine ⟨fun hlow => hout hlow, fun hlow => hout hlow, fun _ => ?_⟩
  rw [hopen] at hfd
  have hfdEq : Function.update s.own.entry (fdPage new) (some (copied w)) = s.own.entry := by
    have hfd' : some (copied w) = s.own.entry (fdPage new) := hfd.symm
    rw [hfd', Function.update_eq_self]
  cases hends with
  | fails _ hwhy =>
      rcases hwhy with hnone | hroom | ⟨hsome, hroom⟩
      · rw [hopen] at hnone
        cases hnone
      · exact absurd hroom (not_noRoom hfd)
      · obtain ⟨d, hd⟩ := Option.ne_none_iff_exists'.mp hsome
        have hmapped := hdata hsome
        rw [hd] at hmapped
        exact absurd hroom (not_noRoom hmapped)
  | file _ _ hx =>
      rw [hopen] at hx
      cases hx
      exact ⟨hneg, hfdEq⟩
  | @data x d hd _ _ hx =>
      have hmapped : some (copied d) = s.own.entry (dataPage new) := by
        rw [hdata (by rw [hd]; exact Option.some_ne_none d), hd]
        rfl
      rw [hmapped, Function.update_eq_self] at hx ⊢
      rw [hopen] at hx
      cases hx
      exact ⟨hneg, hfdEq⟩

/-- With memory to spare, only a page above `UTOP` is refused. -/
theorem noRoom_memory (h : NoRoom { s with memory := fun _ => true } v) : userPages ≤ v := by
  by_contra hlt
  obtain ⟨⟨_, hn⟩, -⟩ := h (Nat.lt_of_not_le hlt)
  cases hn

/-- A descriptor that is closed while it is duplicated is lost. -/
theorem not_duplicated_self {m : Space} (hold : InTable old)
    (hopen : s.own.entry (fdPage old) = some w) (hgone : m (fdPage old) = none)
    {m' : Space} (hends : DupEnds s m old old r m') :
    ¬ Duplicated s.own.entry m' old old r := by
  intro h
  cases hends with
  | fails hneg _ =>
      obtain ⟨hclosed, hsame⟩ := h.fails hold.1 hold.2 hneg
      have hkept := (hsame old hold.1 hold.2 (Or.inr rfl)).1
      rw [hclosed, hopen] at hkept
      cases hkept
  | file _ _ hx =>
      rw [hgone] at hx
      cases hx
  | data _ _ _ hx =>
      rw [Function.update_of_ne fdPage_ne_dataPage, hgone] at hx
      cases hx

/-- A data page of the new descriptor that stays there. -/
theorem not_duplicated_stale {m : Space} {s₀ : Caller} (hnew : InTable new)
    (hfd : m (fdPage old) = some w) (hnone : m (dataPage old) = none)
    (hdata : s.own.entry (dataPage old) = none) (hstale : m (dataPage new) ≠ none)
    (hroom : NoRoom s₀ (fdPage new) → userPages ≤ fdPage new)
    {m' : Space} (hends : DupEnds s₀ m old new r m') :
    ¬ Duplicated s.own.entry m' old new r := by
  intro h
  cases hends with
  | fails _ hwhy =>
      rcases hwhy with hh | hh | ⟨hh, -⟩
      · rw [hfd] at hh
        cases hh
      · obtain ⟨hf, -, hlt⟩ := hnew.pages
        have hge := hroom hh
        have husers : userPages = 0xEEC00 := rfl
        omega
      · exact hh hnone
  | file _ _ _ =>
      obtain ⟨-, -, hpage, -⟩ := h.returns hnew.1 hnew.2 hnew.1
      unfold Space.page at hpage
      rw [Function.update_of_ne fdPage_ne_dataPage.symm, hdata] at hpage
      exact hstale (Option.map_eq_none_iff.mp hpage)
  | data hd _ _ _ =>
      rw [hnone] at hd
      cases hd

/-- Where a number outside of the table is harmless. -/
theorem duplicated_outside {m : Space} {s₀ : Caller} (hnew : ¬ InTable new)
    (hopen : m (fdPage old) = some w)
    (hroomF : NoRoom s₀ (fdPage new) → userPages ≤ fdPage new)
    (hroomD : NoRoom s₀ (dataPage new) → userPages ≤ dataPage new)
    {m' : Space} (hends : DupEnds s₀ m old new r m') (h : Duplicated m m' old new r) :
    DupFits device m old new := by
  obtain ⟨hneg, hsame⟩ := h.outside hnew
  cases hends with
  | fails _ hwhy =>
      refine .refused hnew ?_ ?_ ?_
      · rcases hwhy with hh | hh | ⟨hh, hd⟩
        · rw [hopen] at hh
          cases hh
        · exact Or.inl (hroomF hh)
        · exact Or.inr ⟨hh, hroomD hd⟩
      · rw [← hsame, Function.update_of_ne fdPage_ne_dataPage, Function.update_self]
      · rw [← hsame, Function.update_self]
  | @file x hnone _ hx =>
      refine .again hneg ?_ (fun hh => absurd hnone hh)
      rw [hx, ← hsame, Function.update_self]
      rfl
  | @data x d hd _ _ hx =>
      have hfd : m (fdPage new) = some (copied x) := by
        rw [← hsame, Function.update_self]
      have hdat : m (dataPage new) = some (copied d) := by
        rw [← hsame, Function.update_of_ne fdPage_ne_dataPage.symm, Function.update_self]
      have hupdate : Function.update m (dataPage new) (some (copied d)) = m := by
        rw [← hdat, Function.update_eq_self]
      rw [hupdate] at hx
      refine .again hneg ?_ (fun _ => ?_)
      · rw [hfd, hx]
        rfl
      · rw [hdat, hd]
        rfl

end Runs

/-- `dup` of an open descriptor does what it is for, whatever memory is left, exactly
for the numbers of other descriptors that it can close, and for a few beyond the table. -/
theorem dup_duplicates_iff {device : Nat → Device} {s : Caller} {old new : Int}
    (hold : 0 ≤ old ∧ old < maxFd) (hopen : s.own.entry (fdPage old) ≠ none) :
    (∀ memory, ∃ r s', (dup device old new).run { s with memory := memory } = .ret r s' ∧
      Duplicated s.own.entry s'.own.entry old new r) ↔
    DupFits device s.own.entry old new := by
  obtain ⟨w, hw⟩ := Option.ne_none_iff_exists'.mp hopen
  have hclosed : ¬ InTable new → ∀ v, ¬ Closes device s.own.entry new v :=
    fun hnew _ hcl => hnew hcl.1
  constructor
  · intro h
    obtain ⟨r, s', hrun, hdup⟩ := h (fun _ => true)
    obtain ⟨r', s'', m, hrun', hgone, hkept, hends⟩ :=
      dup_run device { s with memory := fun _ => true } new hold hw
    rw [hrun] at hrun'
    cases hrun'
    by_cases hnew : InTable new
    · by_cases hne : new = old
      · subst hne
        have hlost : m (fdPage new) = none := hgone _ ⟨hnew, w, hw, Or.inl rfl⟩
        exact absurd hdup (not_duplicated_self (s := { s with memory := fun _ => true })
          hold hw hlost hends)
      · refine .inside hnew.1 hnew.2 hne ?_
        by_contra hno
        rw [not_or, not_or, not_not] at hno
        obtain ⟨hdata, hstale, hpipe⟩ := hno
        obtain ⟨hfo, hdo⟩ :=
          not_closes device s.own.entry hold (Ne.symm hne)
        have hopened : ¬ Closes device s.own.entry new (dataPage new) := by
          rintro ⟨-, x, hx, hv | ⟨-, hp⟩⟩
          · exact fdPage_ne_dataPage hv.symm
          · exact hpipe ⟨x, hx, hp⟩
        refine not_duplicated_stale hnew ((hkept _ hfo).trans hw)
          ((hkept _ hdo).trans hdata) hdata ?_ noRoom_memory hends hdup
        rw [hkept _ hopened]
        exact hstale
    · have hsame : m = s.own.entry := funext (fun v => hkept v (hclosed hnew v))
      subst hsame
      exact duplicated_outside hnew hw noRoom_memory noRoom_memory hends hdup
  · intro h memory
    obtain ⟨r, s', m, hrun, hgone, hkept, hends⟩ :=
      dup_run device { s with memory := memory } new hold hw
    refine ⟨r, s', hrun, ?_⟩
    cases h with
    | inside hlow hhigh hne hdata =>
        exact duplicated_inside (s := { s with memory := memory }) hold ⟨hlow, hhigh⟩ hne hw
          hdata hgone hkept hends
    | refused hnew hrefused hfd hdata =>
        exact duplicated_refused (s := { s with memory := memory }) hnew hrefused hfd hdata
          (funext (fun v => hkept v (hclosed hnew v))) hends
    | again hneg hfd hdata =>
        have hnew : ¬ InTable new := fun hh => absurd hneg (not_lt.mpr hh.1)
        exact duplicated_again (s := { s with memory := memory }) hneg hw hfd hdata
          (funext (fun v => hkept v (hclosed hnew v))) hends

/-! ## An open descriptor -/

/-- One descriptor is open, number 0. -/
def oneFd : Caller where
  own := PageTable.empty.fill 0xD0000 ⟨5, 7#32⟩ ⟨by decide, by decide⟩
  child := none
  bytes := fun _ _ => 0#8
  fresh := 6
  memory := fun _ => true
  asked := 0

theorem oneFd_open : oneFd.own.entry (fdPage 0) = some ⟨5, 7#32⟩ := rfl

/-- `dup(0, 1)`. -/
theorem dup_duplicates_iff_oneFd :
    (∀ memory, ∃ r s', (dup (fun _ => .other 0) 0 1).run { oneFd with memory := memory } =
      .ret r s' ∧ Duplicated oneFd.own.entry s'.own.entry 0 1 r) ↔
    DupFits (fun _ => .other 0) oneFd.own.entry 0 1 :=
  dup_duplicates_iff (by decide) (by rw [oneFd_open]; exact Option.some_ne_none _)

/-- `dup(0, 0)` closes the descriptor and fails. -/
theorem not_dup_duplicates : ¬ ∀ (device : Nat → Device) (s : Caller) (old new : Int),
    (0 ≤ old ∧ old < maxFd) → s.own.entry (fdPage old) ≠ none →
    ∀ r s', (dup device old new).run s = .ret r s' →
      Duplicated s.own.entry s'.own.entry old new r := by
  intro hall
  obtain ⟨r, s', m, hrun, hgone, -, hends⟩ := dup_run (fun _ => .other 0) oneFd 0
    (show (0 : Int) ≤ 0 ∧ (0 : Int) < maxFd by decide) oneFd_open
  have hlost : m (fdPage 0) = none :=
    hgone _ ⟨by decide, ⟨5, 7#32⟩, oneFd_open, Or.inl rfl⟩
  exact not_duplicated_self (by constructor <;> decide) oneFd_open hlost hends
    (hall (fun _ => .other 0) oneFd 0 0 (by decide)
      (by rw [oneFd_open]; exact Option.some_ne_none _) r s' hrun)

end Jos.User

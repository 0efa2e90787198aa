import Jos.PipeEnds

/-!
# What an address space that holds ends of a pipe looks like

Between two routines every descriptor slot that maps an end has the buffer in its
data slot, and the other way round (`Pipe.Matched`).  `Pipe.Safe` says of a routine
that it keeps, after each of its steps, the first half (`Pipe.Paired`), and gives
away no page of the pipe.  `close` and `dup` are safe wherever they start, and a
routine of an environment that holds nothing of the pipe is safe whatever it does.
-/

namespace Jos

theorem fdPage_nat {i : Nat} (hi : i < 32) : fdPage i = 0xD0000 + i := by
  unfold fdPage
  omega

theorem dataPage_nat {i : Nat} (hi : i < 32) : dataPage i = 0xD0020 + i := by
  unfold dataPage
  omega

namespace Pipe

variable {P : Pipe} {m : Space} {v : Nat} {i j : Nat} {w : Option UserPte}

section Spaces

variable (P)

/-- Nothing of the pipe is mapped. -/
def Plain (m : Space) : Prop := ∀ v q, m.page v = some q → q ∉ P.pages

/-- Ends are mapped in descriptor slots, each with the buffer in its data slot,
and the buffer in data slots. -/
structure Paired (m : Space) : Prop where
  fd : ∀ v q, m.page v = some q → P.IsEnd q →
    ∃ i : Nat, i < 32 ∧ v = fdPage i ∧ m.page (dataPage i) = some P.buf
  data : ∀ v, m.page v = some P.buf → ∃ i : Nat, i < 32 ∧ v = dataPage i

/-- If data slot `i` has the buffer, then descriptor slot `i` has an end. -/
def MatchedAt (m : Space) (i : Nat) : Prop :=
  m.page (dataPage i) = some P.buf → ∃ q, m.page (fdPage i) = some q ∧ P.IsEnd q

/-- How a space looks between two routines, descriptor `i` apart. -/
structure Near (m : Space) (i : Nat) : Prop where
  paired : P.Paired m
  matched : ∀ j, j < 32 → j ≠ i → P.MatchedAt m j

/-- How a space looks between two routines. -/
structure Matched (m : Space) : Prop where
  paired : P.Paired m
  matched : ∀ j, j < 32 → P.MatchedAt m j

end Spaces

theorem Plain.set (h : P.Plain m) (hw : ∀ x, w = some x → x.page ∉ P.pages) :
    P.Plain (m.set v w) := by
  intro v' q hq
  rcases Space.page_set_eq hq with ⟨-, hx⟩ | ⟨-, hx⟩
  · obtain ⟨x, hxw, rfl⟩ := Option.map_eq_some_iff.mp hx
    exact hw x hxw
  · exact h v' q hx

theorem Plain.paired (h : P.Plain m) : P.Paired m where
  fd := fun v q hq he => absurd he.mem (h v q hq)
  data := fun v hq => absurd buf_mem (h v _ hq)

theorem Plain.matched (h : P.Plain m) : P.Matched m where
  paired := h.paired
  matched := fun _ _ hq => absurd buf_mem (h _ _ hq)

/-- Without an end there is nothing of the pipe. -/
theorem Matched.plain (h : P.Matched m)
    (hno : ∀ v q, m.page v = some q → ¬ P.IsEnd q) : P.Plain m := by
  intro v q hq hmem
  rcases hmem with he | rfl
  · exact hno v q hq he
  · obtain ⟨i, hi, rfl⟩ := h.paired.data v hq
    obtain ⟨q, hfd, he⟩ := h.matched i hi hq
    exact hno _ q hfd he

theorem Matched.near (h : P.Matched m) (i : Nat) : P.Near m i where
  paired := h.paired
  matched := fun j hj _ => h.matched j hj

theorem Near.done (h : P.Near m i) (hi : P.MatchedAt m i) : P.Matched m where
  paired := h.paired
  matched := fun j hj => by
    by_cases hji : j = i
    · subst hji
      exact hi
    · exact h.matched j hj hji

/-- A data slot does not map an end. -/
theorem Paired.data_not_end {q : Nat} (h : P.Paired m) (hi : i < 32)
    (hq : m.page (dataPage i) = some q) : ¬ P.IsEnd q := by
  intro he
  obtain ⟨j, hj, hv, -⟩ := h.fd _ q hq he
  rw [fdPage_nat hj, dataPage_nat hi] at hv
  omega

/-- A descriptor slot does not map the buffer. -/
theorem Paired.fd_ne_buf {q : Nat} (h : P.Paired m) (hi : i < 32)
    (hq : m.page (fdPage i) = some q) : q ≠ P.buf := by
  rintro rfl
  obtain ⟨j, hj, hv⟩ := h.data _ hq
  rw [fdPage_nat hi, dataPage_nat hj] at hv
  omega

/-- With an end in descriptor slot `i`, data slot `i` has the buffer. -/
theorem Paired.data_buf {q : Nat} (h : P.Paired m) (hi : i < 32)
    (hq : m.page (fdPage i) = some q) (he : P.IsEnd q) :
    m.page (dataPage i) = some P.buf := by
  obtain ⟨j, hj, hv, hd⟩ := h.fd _ q hq he
  rw [fdPage_nat hi, fdPage_nat hj] at hv
  obtain rfl : i = j := by omega
  exact hd

theorem fdPage_ne_dataPage (hi : i < 32) (hj : j < 32) : fdPage i ≠ dataPage j := by
  rw [fdPage_nat hi, dataPage_nat hj]
  omega

theorem fdPage_ne (hi : i < 32) (hj : j < 32) (h : j ≠ i) : fdPage j ≠ fdPage i := by
  rw [fdPage_nat hi, fdPage_nat hj]
  omega

theorem dataPage_ne (hi : i < 32) (hj : j < 32) (h : j ≠ i) :
    dataPage j ≠ dataPage i := by
  rw [dataPage_nat hi, dataPage_nat hj]
  omega

/-- Descriptor slot `i` gets a page: an end only if the buffer is there. -/
theorem Near.set_fd (h : P.Near m i) (hi : i < 32)
    (hbuf : ∀ x, w = some x → x.page ≠ P.buf)
    (hend : ∀ x, w = some x → P.IsEnd x.page → m.page (dataPage i) = some P.buf) :
    P.Near (m.set (fdPage i) w) i where
  paired := {
    fd := fun v q hq he => by
      rcases Space.page_set_eq hq with ⟨rfl, hx⟩ | ⟨hv, hx⟩
      · obtain ⟨x, hxw, rfl⟩ := Option.map_eq_some_iff.mp hx
        refine ⟨i, hi, rfl, ?_⟩
        rw [Space.page_set_of_ne (fdPage_ne_dataPage hi hi).symm]
        exact hend x hxw he
      · obtain ⟨j, hj, hvj, hd⟩ := h.paired.fd v q hx he
        refine ⟨j, hj, hvj, ?_⟩
        rw [Space.page_set_of_ne (fdPage_ne_dataPage hi hj).symm]
        exact hd
    data := fun v hq => by
      rcases Space.page_set_eq hq with ⟨-, hx⟩ | ⟨-, hx⟩
      · obtain ⟨x, hxw, hxq⟩ := Option.map_eq_some_iff.mp hx
        exact absurd hxq (hbuf x hxw)
      · exact h.paired.data v hx }
  matched := fun j hj hji hq => by
    rw [Space.page_set_of_ne (fdPage_ne_dataPage hi hj).symm] at hq
    rw [Space.page_set_of_ne (fdPage_ne hi hj hji)]
    exact h.matched j hj hji hq

/-- Data slot `i` gets a page while descriptor slot `i` maps no end. -/
theorem Near.set_data (h : P.Near m i) (hi : i < 32)
    (hfd : ∀ q, m.page (fdPage i) = some q → ¬ P.IsEnd q)
    (hend : ∀ x, w = some x → ¬ P.IsEnd x.page) :
    P.Near (m.set (dataPage i) w) i where
  paired := {
    fd := fun v q hq he => by
      rcases Space.page_set_eq hq with ⟨-, hx⟩ | ⟨hv, hx⟩
      · obtain ⟨x, hxw, rfl⟩ := Option.map_eq_some_iff.mp hx
        exact absurd he (hend x hxw)
      · obtain ⟨j, hj, hvj, hd⟩ := h.paired.fd v q hx he
        refine ⟨j, hj, hvj, ?_⟩
        by_cases hji : j = i
        · subst hji hvj
          exact absurd he (hfd q hx)
        · rw [Space.page_set_of_ne (dataPage_ne hi hj hji)]
          exact hd
    data := fun v hq => by
      rcases Space.page_set_eq hq with ⟨hv, -⟩ | ⟨-, hx⟩
      · exact ⟨i, hi, hv⟩
      · exact h.paired.data v hx }
  matched := fun j hj hji hq => by
    rw [Space.page_set_of_ne (dataPage_ne hi hj hji)] at hq
    rw [Space.page_set_of_ne (fdPage_ne_dataPage hj hi)]
    exact h.matched j hj hji hq

/-- Where descriptor slot `i` is free, an end can be opened. -/
theorem Matched.openEnd {x y : UserPte} (h : P.Matched m) (hi : i < 32)
    (hfd : m (fdPage i) = none) (hx : x.page = P.buf) (hy : P.IsEnd y.page) :
    P.Matched ((m.set (dataPage i) (some x)).set (fdPage i) (some y)) := by
  have hdata : P.Near (m.set (dataPage i) (some x)) i := by
    refine (h.near i).set_data hi (by simp [Space.page, hfd]) (fun t ht hend => ?_)
    cases ht
    exact hend.ne_buf hx
  have hend : P.Near ((m.set (dataPage i) (some x)).set (fdPage i) (some y)) i := by
    refine hdata.set_fd hi (fun t ht => ?_) (fun t ht _ => ?_)
    · cases ht
      exact hy.ne_buf
    · cases ht
      simp [hx]
  exact hend.done (fun _ => ⟨y.page, by simp, hy⟩)

theorem matchedAt_of_none (h : ∀ q, m.page (dataPage i) = some q → q ≠ P.buf) :
    P.MatchedAt m i := fun hq => absurd rfl (h _ hq)

/-! ## Safe routines -/

section Safe

variable (P)

/-- A routine that keeps a space paired after each of its steps, copies nothing of
the pipe, and ends in `Q`. -/
def Safe (Q : Space → Prop) : LibCode → Space → Prop
  | .ret, m => Q m
  | .look v next, m => Safe Q (next (m v)) m
  | .unmap v next, m =>
      (v < userPages →
        P.Paired (m.set v none) ∧
          Safe Q next (m.set v none)) ∧
        (¬ v < userPages → Safe Q next m)
  | .map src dst perm next, m =>
      (∀ w, m src = some w → dst < userPages →
        P.Paired (m.set dst (some ⟨w.page, perm⟩)) ∧
          Safe Q (next true) (m.set dst (some ⟨w.page, perm⟩))) ∧
        Safe Q (next false) m
  | .alloc v next, m =>
      (∀ w : UserPte, w.page ∉ P.pages →
        P.Paired (m.set v (some w)) ∧
          Safe Q (next true) (m.set v (some w))) ∧
        Safe Q (next false) m
  | .request next, m => ∀ ok, Safe Q (next ok) m
  | .receive v next, m =>
      (∀ w : UserPte, w.page ∉ P.pages →
        P.Paired (m.set v (some w)) ∧
          Safe Q (next true) (m.set v (some w))) ∧
        Safe Q (next false) m
  | .exofork next, m => ∀ c, Safe Q (next c) m
  | .copy _ src _ _ next, m =>
      (∀ w, m src = some w → w.page ∉ P.pages) ∧ ∀ ok, Safe Q (next ok) m
  | .allocChild _ _ next, m => ∀ ok, Safe Q (next ok) m
  | .start _ next, m => Safe Q next m
  | .destroy _ next, m => Safe Q next m

end Safe

variable {Q : Space → Prop} {c d : LibCode}

/-- A routine of an environment that holds nothing of the pipe. -/
theorem Plain.safe (c : LibCode) (h : P.Plain m) : P.Safe P.Plain c m := by
  induction c generalizing m with
  | ret => exact h
  | look v next ih => exact ih (m v) h
  | unmap v next ih =>
      have hu : P.Plain (m.set v none) := h.set (by simp)
      exact ⟨fun _ => ⟨hu.paired, ih hu⟩, fun _ => ih h⟩
  | map src dst perm next ih =>
      refine ⟨fun w hw _ => ?_, ih false h⟩
      have hu : P.Plain (m.set dst (some ⟨w.page, perm⟩)) :=
        h.set (fun x hx => by
          cases hx
          exact h src w.page (by simp [Space.page, hw]))
      exact ⟨hu.paired, ih true hu⟩
  | alloc v next ih =>
      refine ⟨fun w hw => ?_, ih false h⟩
      have hu : P.Plain (m.set v (some w)) :=
        h.set (fun x hx => by cases hx; exact hw)
      exact ⟨hu.paired, ih true hu⟩
  | request next ih => exact fun ok => ih ok h
  | receive v next ih =>
      refine ⟨fun w hw => ?_, ih false h⟩
      have hu : P.Plain (m.set v (some w)) :=
        h.set (fun x hx => by cases hx; exact hw)
      exact ⟨hu.paired, ih true hu⟩
  | exofork next ih => exact fun c => ih c h
  | copy child src dst perm next ih =>
      refine ⟨fun w hw => ?_, fun ok => ih ok h⟩
      exact h src w.page (by simp [Space.page, hw])
  | allocChild child v next ih => exact fun ok => ih ok h
  | start child next ih => exact ih h
  | destroy child next ih => exact ih h

theorem Safe.mono {Q' : Space → Prop} (h : P.Safe Q c m) (hQ : ∀ m, Q m → Q' m) :
    P.Safe Q' c m := by
  induction c generalizing m with
  | ret => exact hQ m h
  | look v next ih => exact ih (m v) h
  | unmap v next ih =>
      exact ⟨fun hv => ⟨(h.1 hv).1, ih (h.1 hv).2⟩, fun hv => ih (h.2 hv)⟩
  | map src dst perm next ih =>
      exact ⟨fun w hw hd => ⟨(h.1 w hw hd).1, ih true (h.1 w hw hd).2⟩, ih false h.2⟩
  | alloc v next ih =>
      exact ⟨fun w hw => ⟨(h.1 w hw).1, ih true (h.1 w hw).2⟩, ih false h.2⟩
  | request next ih => exact fun ok => ih ok (h ok)
  | receive v next ih =>
      exact ⟨fun w hw => ⟨(h.1 w hw).1, ih true (h.1 w hw).2⟩, ih false h.2⟩
  | exofork next ih => exact fun c => ih c (h c)
  | copy child src dst perm next ih => exact ⟨h.1, fun ok => ih ok (h.2 ok)⟩
  | allocChild child v next ih => exact fun ok => ih ok (h ok)
  | start child next ih => exact ih h
  | destroy child next ih => exact ih h

/-- One routine after the other. -/
theorem Safe.andThen (h : P.Safe (P.Safe Q d) c m) : P.Safe Q (c.andThen d) m := by
  induction c generalizing m with
  | ret => exact h
  | look v next ih => exact ih (m v) h
  | unmap v next ih =>
      exact ⟨fun hv => ⟨(h.1 hv).1, ih (h.1 hv).2⟩, fun hv => ih (h.2 hv)⟩
  | map src dst perm next ih =>
      exact ⟨fun w hw hd => ⟨(h.1 w hw hd).1, ih true (h.1 w hw hd).2⟩, ih false h.2⟩
  | alloc v next ih =>
      exact ⟨fun w hw => ⟨(h.1 w hw).1, ih true (h.1 w hw).2⟩, ih false h.2⟩
  | request next ih => exact fun ok => ih ok (h ok)
  | receive v next ih =>
      exact ⟨fun w hw => ⟨(h.1 w hw).1, ih true (h.1 w hw).2⟩, ih false h.2⟩
  | exofork next ih => exact fun c => ih c (h c)
  | copy child src dst perm next ih => exact ⟨h.1, fun ok => ih ok (h.2 ok)⟩
  | allocChild child v next ih => exact fun ok => ih ok (h ok)
  | start child next ih => exact ih h
  | destroy child next ih => exact ih h

/-! ## `close` and `dup` -/

section Routines

variable {isPipe : Nat → Bool}

/-- The last step of `close`, and of `dup` at `err`. -/
theorem safe_unmap_fd (hi : i < 32) (h : P.Near m i)
    (hnext : P.Near (m.set (fdPage i) none) i →
      P.Safe Q c (m.set (fdPage i) none)) :
    P.Safe Q (.unmap (fdPage i) c) m := by
  have hu : P.Near (m.set (fdPage i) none) i :=
    h.set_fd hi (by simp) (by simp)
  exact ⟨fun _ => ⟨hu.paired, hnext hu⟩, fun hv => by
    rw [fdPage_nat hi] at hv
    unfold userPages at hv
    omega⟩

theorem safe_unmap_data (hi : i < 32) (h : P.Near m i) (hfd : m (fdPage i) = none)
    (hnext : P.Near (m.set (dataPage i) none) i →
      P.Safe Q c (m.set (dataPage i) none)) :
    P.Safe Q (.unmap (dataPage i) c) m := by
  have hu : P.Near (m.set (dataPage i) none) i :=
    h.set_data hi (by simp [Space.page, hfd]) (by simp)
  exact ⟨fun _ => ⟨hu.paired, hnext hu⟩, fun hv => by
    rw [dataPage_nat hi] at hv
    unfold userPages at hv
    omega⟩

/-- After both slots are unmapped, nothing is left to match. -/
theorem Near.closed (h : P.Near m i) (hdata : m (dataPage i) = none) :
    P.Matched m :=
  h.done (matchedAt_of_none (by simp [Space.page, hdata]))

/-- `fd_lookup` finds descriptor `k` open, or the routine is over. -/
theorem safe_fdLookup {k : Int} {next : UserPte → LibCode}
    (hnot : (∀ i : Nat, k = i → i < 32 → m (fdPage i) = none) → Q m)
    (hnext : ∀ (i : Nat) (w : UserPte), k = i → i < 32 → m (fdPage i) = some w →
      P.Safe Q (next w) m) :
    P.Safe Q (LibCode.fdLookup k next) m := by
  unfold LibCode.fdLookup
  by_cases hk : 0 ≤ k ∧ k < maxFd
  · rw [if_pos hk]
    obtain ⟨i, rfl⟩ := Int.eq_ofNat_of_zero_le hk.1
    have hi : i < 32 := by
      have h := hk.2
      unfold maxFd at h
      omega
    unfold Safe
    cases hfd : m (fdPage i) with
    | none =>
        refine hnot (fun j hj _ => ?_)
        rw [← hj]
        exact hfd
    | some w => exact hnext i w rfl hi hfd
  · rw [if_neg hk]
    refine hnot (fun i hki hi => absurd ?_ hk)
    unfold maxFd
    omega

variable (hr : isPipe P.rfd = true) (hw : isPipe P.wfd = true)
include hr hw

/-- `close` leaves descriptor `k` unmapped. -/
theorem Matched.safe_close (h : P.Matched m) (k : Int) :
    P.Safe (fun m => P.Matched m ∧ ∀ i : Nat, k = i → i < 32 → m (fdPage i) = none)
      (LibCode.close isPipe k) m := by
  refine safe_fdLookup (fun hnone => ⟨h, hnone⟩) (fun i w hk hi hfd => ?_)
  subst hk
  refine safe_fdLookup (fun hnone => ?_) (fun j w' hj _ hfd' => ?_)
  · rw [hnone i rfl hi] at hfd
    exact absurd hfd (by simp)
  obtain rfl : i = j := Int.ofNat.inj hj
  obtain rfl : w = w' := by
    rw [hfd] at hfd'
    exact Option.some.inj hfd'
  refine Safe.andThen ?_
  cases hp : isPipe w.page with
  | true =>
      refine safe_unmap_fd hi (h.near i) (fun h₁ => ?_)
      refine safe_unmap_data hi h₁ (by simp) (fun h₂ => ?_)
      refine safe_unmap_fd hi h₂ (fun h₃ => ⟨h₃.closed ?_, fun l hl _ => ?_⟩)
      · rw [Space.set_of_ne (fdPage_ne_dataPage hi hi).symm, Space.set_self]
      · obtain rfl : i = l := Int.ofNat.inj hl
        exact Space.set_self
  | false =>
      have hno : ¬ P.IsEnd w.page := by
        rintro (he | he)
        · rw [he, hr] at hp
          exact absurd hp (by simp)
        · rw [he, hw] at hp
          exact absurd hp (by simp)
      refine safe_unmap_fd hi (h.near i) (fun h₁ => ⟨h₁.done ?_, fun l hl _ => ?_⟩)
      · refine matchedAt_of_none (fun q hq hbuf => hno ?_)
        rw [Space.page_set_of_ne (fdPage_ne_dataPage hi hi).symm, hbuf] at hq
        obtain ⟨q', hq', he⟩ := h.matched i hi hq
        obtain rfl : w.page = q' := by
          unfold Space.page at hq'
          rw [hfd] at hq'
          exact Option.some.inj hq'
        exact he
      · obtain rfl : i = l := Int.ofNat.inj hl
        exact Space.set_self

omit hr hw in
/-- `dup` at `err`. -/
theorem Near.safe_dupErr (h : P.Near m i) (hi : i < 32) :
    P.Safe P.Matched (LibCode.dupErr i) m := by
  refine safe_unmap_fd hi h (fun h₁ => ?_)
  refine safe_unmap_data hi h₁ Space.set_self (fun h₂ => ?_)
  exact h₂.closed Space.set_self

omit hr hw in
/-- The descriptor is mapped last, when the data slot holds what it should. -/
theorem Near.safe_dupFd (h : P.Near m i) (hi : i < 32) (hj : j < 32)
    (hfd : ∀ q, m.page (fdPage j) = some q → P.IsEnd q →
      m.page (dataPage i) = some P.buf)
    (hdata : m.page (dataPage i) = some P.buf →
      ∃ q, m.page (fdPage j) = some q ∧ P.IsEnd q) :
    P.Safe P.Matched (LibCode.dupFd j i) m := by
  unfold LibCode.dupFd Safe
  cases hw : m (fdPage j) with
  | none => exact h.safe_dupErr hi
  | some w =>
      have hpage : m.page (fdPage j) = some w.page := by
        simp [Space.page, hw]
      refine ⟨fun w' hw' _ => ?_, h.safe_dupErr hi⟩
      obtain rfl : w = w' := by
        rw [hw] at hw'
        exact Option.some.inj hw'
      have hset : P.Near (m.set (fdPage i) (some ⟨w.page, w.perm &&& pteSyscall⟩)) i := by
        refine h.set_fd hi (fun x hx => ?_) (fun x hx he => ?_)
        · cases hx
          exact h.paired.fd_ne_buf hj hpage
        · cases hx
          exact hfd w.page hpage he
      refine ⟨hset.paired, hset.done (fun hd => ⟨w.page, by simp, ?_⟩)⟩
      rw [Space.page_set_of_ne (fdPage_ne_dataPage hi hi).symm] at hd
      obtain ⟨q, hq, he⟩ := hdata hd
      rw [hpage] at hq
      cases hq
      exact he

/-- `dup` to a descriptor. -/
theorem Matched.safe_dup (h : P.Matched m) (old : Int) {new : Int} (hnew : 0 ≤ new)
    (hlt : new < 32) :
    P.Safe P.Matched (LibCode.dup isPipe old new) m := by
  obtain ⟨i, rfl⟩ := Int.eq_ofNat_of_zero_le hnew
  have hi : i < 32 := by omega
  refine safe_fdLookup (fun _ => h) (fun j _ hold hj _ => ?_)
  subst hold
  refine Safe.andThen ((h.safe_close hr hw i).mono (fun m hm => ?_))
  obtain ⟨hm, hnone⟩ := hm
  have hfdi : m (fdPage i) = none := hnone i rfl hi
  unfold Safe
  cases hw : m (dataPage j) with
  | none =>
      refine (hm.near i).safe_dupFd hi hj (fun q hq he => ?_) (fun hd => ?_)
      · have hd := hm.paired.data_buf hj hq he
        simp [Space.page, hw] at hd
      · obtain ⟨q, hq, -⟩ := hm.matched i hi hd
        simp [Space.page, hfdi] at hq
  | some w =>
      have hpage : m.page (dataPage j) = some w.page := by
        simp [Space.page, hw]
      refine ⟨fun w' hw' _ => ?_, (hm.near i).safe_dupErr hi⟩
      obtain rfl : w = w' := by
        rw [hw] at hw'
        exact Option.some.inj hw'
      have hset : P.Near
          (m.set (dataPage i) (some ⟨w.page, w.perm &&& pteSyscall⟩)) i := by
        refine (hm.near i).set_data hi (by simp [Space.page, hfdi]) (fun x hx => ?_)
        cases hx
        exact hm.paired.data_not_end hj hpage
      have hfdj : (m.set (dataPage i) (some ⟨w.page, w.perm &&& pteSyscall⟩)).page
          (fdPage j) = m.page (fdPage j) :=
        Space.page_set_of_ne (fdPage_ne_dataPage hj hi)
      refine ⟨hset.paired, hset.safe_dupFd hi hj (fun q hq he => ?_) (fun hd => ?_)⟩
      · rw [hfdj] at hq
        rw [hm.paired.data_buf hj hq he] at hpage
        simp only [Space.page_set_self, Option.map_some]
        exact hpage.symm
      · rw [hfdj]
        simp only [Space.page_set_self, Option.map_some] at hd
        exact hm.matched j hj (hpage.trans hd)

end Routines

end Pipe

end Jos

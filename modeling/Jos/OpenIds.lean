import Jos.OpenFiles

/-!
# `openfile_alloc`: the ids

The id of a slot grows by `MAXOPEN` in every use and is returned as a signed number,
where a negative one means that the allocation failed.  After `2 ^ 21` uses of a slot
its id is negative: the slot is taken, and the client is told of an error.
-/

namespace Jos

open Relation

section Ids

variable (fs : Nat) (isPipe : Nat → Bool)

/-- A client has the file in slot `i` open. -/
def SlotOpen (u : Users) (i : Nat) : Prop :=
  ∃ p, slotPage fs u i = some p ∧ ClientMaps fs u p

/-- `openfile_alloc` takes slot `i` for a request of client `e`. -/
def TakesSlot (s s' : OpenState) (i e : Nat) : Prop :=
  s.server = .scan i e ∧ s'.allocs i = s.allocs i + 1

/-- `openfile_alloc` goes on looking for a slot for client `e`. -/
def Scanning (e : Nat) (s s' : OpenState) : Prop :=
  OpenStep fs isPipe s s' ∧ ∃ i, s'.server = .scan i e

/-- What `openfile_alloc` returns is an id if a slot is taken, and an error only if
there is none: `serve_open` continues with a slot that was taken, and the table is
full when it gives up. -/
structure AllocSound (s : OpenState) : Prop where
  taken : ∀ s' i e, OpenStep fs isPipe s s' → TakesSlot s s' i e →
    0 ≤ (s'.fileid i).toInt ∧ s'.server = .found i e
  refused : ∀ s' t e, OpenStep fs isPipe s s' → s.server = .idle →
    s'.server = .scan 0 e → ReflTransGen (Scanning fs isPipe e) s' t →
    t.server = .scan maxOpen e → ∀ i, i < maxOpen → SlotOpen fs s.users i

/-- The next id of a slot that is about to be taken has its top bit clear: the slot has
been used fewer than `2 ^ 21 - 1` times, or the id has wrapped around since. -/
def NextIdFits (s : OpenState) : Prop :=
  ∀ i e, s.server = .scan i e → i < maxOpen → s.users.pageref fs (fdSlot i) ≤ 1 →
    (s.allocs i + 1) % 2 ^ 22 < 2 ^ 21

end Ids

/-! ## The invariant -/

section Invariant

variable {fs : Nat} {isPipe : Nat → Bool} {s s' t : OpenState} {u : Users} {i j e p : Nat}

/-- What every step keeps, however many references a page has. -/
structure TableInv (fs : Nat) (s : OpenState) : Prop where
  server_lt : fs < nenv
  server_alive : s.users.life fs = .alive
  slot : ∀ e, s.users.life e ≠ .free → e < nenv
  client : ∀ i e, s.server = .scan i e ∨ s.server = .found i e → e ≠ fs
  own : OwnSlots fs s.users
  fileid : ∀ i, i < maxOpen → s.fileid i = slotId i (s.allocs i)

theorem ServeInit.tableInv (h : ServeInit fs s) : TableInv fs s :=
  ⟨h.inv.server_lt, h.inv.server_alive, h.inv.slot, h.inv.client, h.inv.own, h.inv.fileid⟩

/-- The server moves on; the table and the address spaces stay. -/
theorem TableInv.moves (h : TableInv fs s) {k : Nat → ClientJob} {t : ServerJob}
    (ht : ∀ i e, t = .scan i e ∨ t = .found i e → e ≠ fs) :
    TableInv fs { s with job := k, server := t } :=
  ⟨h.server_lt, h.server_alive, h.slot, ht, h.own, h.fileid⟩

theorem TableInv.idle (h : TableInv fs s) {k : Nat → ClientJob} :
    TableInv fs { s with job := k, server := .idle } :=
  h.moves (fun i e hor => by simp at hor)

/-- The space of the server is left alone. -/
theorem TableInv.setUsers (h : TableInv fs s) (hspace : u.spaces fs = s.users.spaces fs)
    (halive : u.life fs = .alive) (hslot : ∀ e, u.life e ≠ .free → e < nenv)
    {k : Nat → ClientJob} : TableInv fs { s.setUsers fs u with job := k } where
  server_lt := h.server_lt
  server_alive := halive
  slot := hslot
  client := h.client
  own := h.own.congr hspace
  fileid := h.fileid

/-- A slot gets a page that is not in use. -/
theorem TableInv.fresh (h : TableInv fs s) {w : UserPte} (hw : s.users.refs w.page = 0) :
    TableInv fs (s.setUsers fs (s.users.set fs (fdSlot i) (some w))) where
  server_lt := h.server_lt
  server_alive := h.server_alive
  slot := h.slot
  client := h.client
  own := h.own.fresh h.server_lt hw
  fileid := h.fileid

/-- A slot is taken. -/
theorem TableInv.take (h : TableInv fs s) (he : e ≠ fs) : TableInv fs ((s.bump i).hand i e) := by
  unfold OpenState.hand
  split
  · refine ⟨h.server_lt, h.server_alive, h.slot, ?_, h.own, bump_fileid h.fileid⟩
    rintro j x (hs | hf)
    · cases hs
    · cases hf
      exact he
  · refine ⟨h.server_lt, h.server_alive, h.slot, ?_, h.own, bump_fileid h.fileid⟩
    rintro j x (hs | hf)
    · cases hs
    · cases hf

theorem TableInv.exit (h : TableInv fs s) (hne : e ≠ fs) {k : Nat → ClientJob} :
    TableInv fs { s.setUsers fs
      ((s.users.setLife e .free).setSpace e (fun _ => none)) with job := k } :=
  h.setUsers (exit_space hne) ((exit_life hne).trans h.server_alive) (exit_slot h.slot)

theorem TableInv.reply (h : TableInv fs s) (he : e ≠ fs) {v : Nat} {perm : U32} :
    TableInv fs (s.reply fs i e v p perm) := by
  have hspace : (s.users.set e v (some ⟨p, perm⟩)).spaces fs = s.users.spaces fs :=
    Users.set_space_of_ne (Ne.symm he)
  have hset : TableInv fs (s.setUsers fs (s.users.set e v (some ⟨p, perm⟩))) :=
    h.setUsers (k := s.job) hspace h.server_alive h.slot
  exact ⟨hset.server_lt, hset.server_alive, hset.slot,
    (fun _ _ hor => hor.elim (fun hs => nomatch hs) (fun hs => nomatch hs)),
    hset.own, hset.fileid⟩

theorem TableInv.step (h : TableInv fs s) (hstep : OpenStep fs isPipe s s') :
    TableInv fs s' := by
  cases hstep with
  | call _ _ _ => exact h.moves h.client
  | @lib e c c' u hne he _ hs =>
      obtain ⟨halive, hspace⟩ := hs.effect.alive h.server_alive (Ne.symm hne)
      exact h.setUsers hspace halive (fun x hx => hs.effect.slot h.slot hx)
  | ret _ _ _ => exact h.moves h.client
  | exit hne _ => exact h.exit hne
  | request hne _ _ _ _ =>
      refine h.moves ?_
      rintro i x (hs | hf)
      · cases hs
        exact hne
      · cases hf
  | @scanUsed i e hscan _ _ =>
      refine h.moves (k := s.job) ?_
      rintro j x (hs | hf)
      · cases hs
        exact h.client i e (Or.inl hscan)
      · cases hf
  | scanFresh hscan _ _ hw => exact (h.fresh hw).take (h.client _ _ (Or.inl hscan))
  | scanNoMem _ _ _ => exact h.idle
  | scanFree hscan _ _ => exact h.take (h.client _ _ (Or.inl hscan))
  | scanEnd _ => exact h.idle
  | openFails _ => exact h.idle
  | reply hf _ _ _ _ => exact h.reply (h.client _ _ (Or.inr hf))

theorem TableInv.run (h : TableInv fs s) (hrun : ReflTransGen (OpenStep fs isPipe) s t) :
    TableInv fs t := by
  induction hrun with
  | refl => exact h
  | tail _ hstep ih => exact ih.step hstep

/-! ## The id -/

/-- The id of a slot after `k` uses, as a signed number. -/
theorem slotId_nonneg {k : Nat} (hi : i < maxOpen) :
    0 ≤ (slotId i k).toInt ↔ k % 2 ^ 22 < 2 ^ 21 := by
  unfold maxOpen at hi
  have hnat : (slotId i k).toNat = (i + 1024 * k) % 2 ^ 32 := by
    unfold slotId
    rw [BitVec.toNat_ofNat]
  rw [BitVec.toInt_eq_toNat_cond, hnat]
  split <;> omega

theorem hand_server (h : 0 ≤ (s.fileid i).toInt) : (s.hand i e).server = .found i e := by
  rw [hand_found h]

theorem bump_allocs : (s.bump i).allocs i = s.allocs i + 1 := Function.update_self _ _ _

theorem hand_fileid : (s.hand i e).fileid = s.fileid := by
  unfold OpenState.hand
  split <;> rfl

theorem hand_allocs : (s.hand i e).allocs = s.allocs := by
  unfold OpenState.hand
  split <;> rfl

theorem takesSlot_hand (hscan : s.server = .scan i e) (hallocs : t.allocs = s.allocs) :
    TakesSlot s ((t.bump i).hand i e) i e := by
  refine ⟨hscan, ?_⟩
  rw [hand_allocs, bump_allocs, hallocs]

/-- A slot is taken by the two branches of `openfile_alloc` that fall together. -/
theorem TakesSlot.cases (htake : TakesSlot s s' i e) (hstep : OpenStep fs isPipe s s') :
    i < maxOpen ∧ s.users.pageref fs (fdSlot i) ≤ 1 ∧
      ∃ r : OpenState, r.fileid = s.fileid ∧ r.allocs = s.allocs ∧ s' = (r.bump i).hand i e := by
  obtain ⟨hscan, hallocs⟩ := htake
  cases hstep with
  | scanFresh hs hi hzero hw =>
      rw [hscan] at hs
      cases hs
      exact ⟨hi, by omega, s.setUsers fs _, rfl, rfl, rfl⟩
  | scanFree hs hi hone =>
      rw [hscan] at hs
      cases hs
      exact ⟨hi, by omega, s, rfl, rfl, rfl⟩
  | call | lib | ret | exit | request | scanUsed | scanNoMem | scanEnd | openFails | reply =>
      exact absurd hallocs (Nat.ne_of_lt (Nat.lt_succ_self _))

/-- The slot that is taken has a new id that is not negative exactly if it was used
few times. -/
theorem TableInv.taken (h : TableInv fs s) (hfits : NextIdFits fs s)
    (hstep : OpenStep fs isPipe s s') (htake : TakesSlot s s' i e) :
    0 ≤ (s'.fileid i).toInt ∧ s'.server = .found i e := by
  obtain ⟨hi, hle, r, hid, hallocs, rfl⟩ := htake.cases hstep
  have hlt := hfits i e htake.1 hi hle
  have hnew : (r.bump i).fileid i = slotId i (s.allocs i + 1) := by
    rw [bump_fileid (fun j hj => by rw [hid, hallocs]; exact h.fileid j hj) i hi,
      bump_allocs, hallocs]
  have hnonneg : 0 ≤ ((r.bump i).fileid i).toInt := by
    rw [hnew]
    exact (slotId_nonneg hi).mpr hlt
  rw [hand_fileid]
  exact ⟨hnonneg, hand_server hnonneg⟩

/-! ## A full table -/

/-- While the server looks for a slot, files are closed but not opened. -/
theorem TableInv.slotOpen (h : TableInv fs s) (hstep : OpenStep fs isPipe s s')
    (hscan : s.server = .scan i e) (hscan' : s'.server = .scan j e)
    {k : Nat} (hk : k < maxOpen) (hopen : SlotOpen fs s'.users k) : SlotOpen fs s.users k := by
  cases hstep with
  | call | ret => exact hopen
  | @lib x c c' u hne hx _ hs =>
      obtain ⟨p, hp, hmap⟩ := hopen
      obtain ⟨-, hspace⟩ := hs.effect.alive h.server_alive (Ne.symm hne)
      change slotPage fs u k = some p at hp
      rw [slotPage_eq hspace] at hp
      exact ⟨p, hp, effect_clientMaps hs.effect hne (h.slot x (by simp [hx])) ⟨k, hk, hp⟩ hmap⟩
  | @exit x hne _ =>
      obtain ⟨p, hp, y, v, hy, hylt, hv, hpage⟩ := hopen
      have hspace : ∀ z, z ≠ x →
          ((s.users.setLife x .free).setSpace x (fun _ => none)).spaces z = s.users.spaces z :=
        fun z hz => by rw [Users.setSpace_of_ne hz, Users.setLife_spaces]
      have hp' : slotPage fs s.users k = some p :=
        (slotPage_eq (hspace fs (Ne.symm hne))).symm.trans hp
      change (((s.users.setLife x .free).setSpace x (fun _ => none)).spaces y).page v = _ at hpage
      by_cases hyx : y = x
      · subst hyx
        simp [Space.page] at hpage
      · rw [hspace y hyx] at hpage
        exact ⟨p, hp', y, v, hy, hylt, hv, hpage⟩
  | request _ _ _ hidle _ => simp [hscan] at hidle
  | scanUsed => exact hopen
  | scanFresh | scanFree =>
      unfold OpenState.hand at hscan'
      split at hscan' <;> cases hscan'
  | scanNoMem | scanEnd | openFails | reply => cases hscan'

/-- A slot that is passed over is in use. -/
theorem TableInv.scanned (h : TableInv fs s) (hstep : OpenStep fs isPipe s s')
    (hscan : s.server = .scan i e) (hscan' : s'.server = .scan j e) :
    j = i ∨ j = i + 1 ∧ SlotOpen fs s.users i := by
  cases hstep with
  | call | lib | ret | exit =>
      refine Or.inl ?_
      have heq : ServerJob.scan j e = .scan i e := hscan'.symm.trans hscan
      cases heq
      rfl
  | @scanUsed i' e' hs hi hused =>
      rw [hscan] at hs
      cases hs
      cases hscan'
      refine Or.inr ⟨rfl, ?_⟩
      cases hp : slotPage fs s.users i with
      | none =>
          change (s.users.spaces fs).page (fdSlot i) = none at hp
          unfold Users.pageref at hused
          rw [hp] at hused
          exact absurd (Nat.zero_le 1) hused
      | some p =>
          refine ⟨p, hp, ?_⟩
          by_contra hno
          have hle := (refs_le_one_iff h.server_lt h.own hi hp).mpr hno
          rw [Users.pageref_of_page hp] at hused
          omega
  | request _ _ _ hidle _ => simp [hscan] at hidle
  | scanFresh | scanFree =>
      unfold OpenState.hand at hscan'
      split at hscan' <;> cases hscan'
  | scanNoMem | scanEnd | openFails | reply => cases hscan'

/-- The slots that were passed over were in use when the request came. -/
theorem TableInv.passed (h : TableInv fs s) (hscan : s.server = .scan 0 e)
    (hrun : ReflTransGen (Scanning fs isPipe e) s t) :
    ∃ i, t.server = .scan i e ∧ TableInv fs t ∧
      (∀ k, k < maxOpen → SlotOpen fs t.users k → SlotOpen fs s.users k) ∧
      ∀ k, k < i → k < maxOpen → SlotOpen fs s.users k := by
  induction hrun with
  | refl => exact ⟨0, hscan, h, fun _ _ hk => hk, fun k hk => absurd hk (Nat.not_lt_zero k)⟩
  | @tail a b _ hstep ih =>
      obtain ⟨i, hi, ha, hback, hpassed⟩ := ih
      obtain ⟨hab, j, hj⟩ := hstep
      refine ⟨j, hj, ha.step hab, fun k hk hopen =>
        hback k hk (ha.slotOpen hab hi hj hk hopen), fun k hkj hk => ?_⟩
      rcases ha.scanned hab hi hj with rfl | ⟨rfl, hopen⟩
      · exact hpassed k hkj hk
      · rcases Nat.lt_succ_iff_lt_or_eq.mp hkj with hlt | rfl
        · exact hpassed k hlt hk
        · exact hback k hk hopen

theorem TableInv.refused (h : TableInv fs s) (hstep : OpenStep fs isPipe s s')
    (hidle : s.server = .idle) (hscan : s'.server = .scan 0 e)
    (hrun : ReflTransGen (Scanning fs isPipe e) s' t) (ht : t.server = .scan maxOpen e)
    (hi : i < maxOpen) : SlotOpen fs s.users i := by
  obtain ⟨j, hj, -, -, hpassed⟩ := (h.step hstep).passed hscan hrun
  have hjmax : j = maxOpen := by
    rw [ht] at hj
    cases hj
    rfl
  have hopen := hpassed i (hjmax ▸ hi) hi
  -- the request itself leaves the address spaces alone
  cases hstep with
  | request => exact hopen
  | call | lib | ret | exit =>
      have heq : ServerJob.scan 0 e = .idle := hscan.symm.trans hidle
      cases heq
  | scanUsed hs | scanFresh hs | scanNoMem hs | scanFree hs | scanEnd hs | openFails hs
  | reply hs =>
      simp [hidle] at hs

/-- As long as no slot is used `2 ^ 21` times, `openfile_alloc` returns the id of the
slot it takes, and fails for want of a slot only if all are in use. -/
theorem open_alloc_sound {fs : Nat} {isPipe : Nat → Bool} {s₀ s : OpenState}
    (hinit : ServeInit fs s₀)
    (hrun : ReflTransGen (fun s s' => OpenStep fs isPipe s s' ∧ NextIdFits fs s') s₀ s) :
    AllocSound fs isPipe s := by
  have hsteps : ReflTransGen (OpenStep fs isPipe) s₀ s :=
    ReflTransGen.mono (fun _ _ h => h.1) _ _ hrun
  have hinv := hinit.tableInv.run hsteps
  have hfits : NextIdFits fs s := by
    rcases hrun.cases_tail with rfl | ⟨r, -, hlast⟩
    · intro i e hscan
      simp [hinit.server_idle] at hscan
    · exact hlast.2
  exact ⟨fun _ _ _ hstep htake => hinv.taken hfits hstep htake,
    fun _ _ _ hstep hidle hscan hscans ht _ hi => hinv.refused hstep hidle hscan hscans ht hi⟩

end Invariant

/-! ## Too many uses -/

/-- The server has a page for slot 0, and nobody else has one. -/
def oneSlot : Users := freshUsers.set 0 (fdSlot 0) (some ⟨5, 7#32⟩)

/-- The client has asked `k` times for a path that cannot be opened. -/
structure Asked (k : Nat) (s : OpenState) : Prop where
  users : s.users = oneSlot
  server : s.server = .idle
  job : s.job 1 = .idle
  allocs : s.allocs 0 = k
  fileid : s.fileid 0 = slotId 0 k

section Asked

variable {s : OpenState} {k : Nat}

/-- The client asks for a path. -/
def OpenState.asks (s : OpenState) : OpenState :=
  { s.setJob 1 (.opens 0xD0000) with server := .scan 0 1 }

theorem openInit_asks : OpenStep 0 (fun _ => false) openInit openInit.asks :=
  .request (by decide) rfl rfl rfl (by decide)

theorem oneSlot_pageref : oneSlot.pageref 0 (fdSlot 0) = 1 := by
  have hpage : (oneSlot.spaces 0).page (fdSlot 0) = some 5 := by
    unfold oneSlot
    rw [Users.set_space_self, Space.page_set_self]
    rfl
  have hrefs : oneSlot.refs 5 = 1 := by
    have hset := Users.refs_set_some (u := freshUsers) (e := 0) (v := fdSlot 0) (p := 5)
      (x := ⟨5, 7#32⟩) (by decide) (by decide) rfl
    rw [freshUsers_refs, Nat.zero_add] at hset
    exact hset
  rw [Users.pageref_of_page hpage, hrefs]

theorem Asked.asks (h : Asked k s) : OpenStep 0 (fun _ => false) s s.asks := by
  have halive : s.users.life 1 = .alive := by
    rw [h.users]
    rfl
  exact .request (by decide) halive h.job h.server (by decide)

/-- Slot 0 is taken again. -/
theorem Asked.scans (h : Asked k s) :
    OpenStep 0 (fun _ => false) s.asks ((s.asks.bump 0).hand 0 1) := by
  refine .scanFree rfl (by decide) ?_
  change s.users.pageref 0 (fdSlot 0) = 1
  rw [h.users]
  exact oneSlot_pageref

theorem Asked.nextId (h : Asked k s) : (s.asks.bump 0).fileid 0 = slotId 0 (k + 1) := by
  change Function.update s.fileid 0 (s.fileid 0 + 1024#32) 0 = _
  rw [Function.update_self, h.fileid, slotId_succ]

/-- The path cannot be opened. -/
theorem fails_asked (husers : s.users = oneSlot) (hserver : s.server = .found 0 1)
    (hallocs : s.allocs 0 = k) (hid : s.fileid 0 = slotId 0 k) :
    ∃ t, OpenStep 0 (fun _ => false) s t ∧ Asked k t :=
  ⟨{ s.setJob 1 .idle with server := .idle }, .openFails hserver,
    husers, rfl, setJob_job (s := s) (e := 1) (j := .idle), hallocs, hid⟩

theorem asked_once : ∃ s, ReflTransGen (OpenStep 0 (fun _ => false)) openInit s ∧
    Asked 1 s := by
  let s₁ := openInit.asks.setUsers 0 oneSlot
  have hscan : OpenStep 0 (fun _ => false) openInit.asks ((s₁.bump 0).hand 0 1) :=
    .scanFresh rfl (by decide) rfl freshUsers_refs
  have hid : (s₁.bump 0).fileid 0 = slotId 0 1 := by
    change Function.update openInit.fileid 0 (openInit.fileid 0 + 1024#32) 0 = _
    rw [Function.update_self]
    rfl
  rw [hand_found (by rw [hid]; decide)] at hscan
  obtain ⟨t, hfails, ht⟩ := fails_asked (s := { s₁.bump 0 with server := .found 0 1 }) rfl rfl
    (bump_allocs (s := s₁) (i := 0)) hid
  exact ⟨t, .head openInit_asks (.head hscan (.single hfails)), ht⟩

theorem Asked.next (h : Asked k s) (hk : k + 1 < 2 ^ 21) :
    ∃ t, ReflTransGen (OpenStep 0 (fun _ => false)) s t ∧ Asked (k + 1) t := by
  have hscan := h.scans
  have hnonneg : 0 ≤ ((s.asks.bump 0).fileid 0).toInt := by
    rw [h.nextId, slotId_nonneg (i := 0) (by decide)]
    omega
  rw [hand_found hnonneg] at hscan
  obtain ⟨t, hfails, ht⟩ := fails_asked (s := { s.asks.bump 0 with server := .found 0 1 })
    h.users rfl ((bump_allocs (s := s.asks) (i := 0)).trans (congrArg (· + 1) h.allocs)) h.nextId
  exact ⟨t, .head h.asks (.head hscan (.single hfails)), ht⟩

theorem asked_many (k : Nat) (hk : k + 1 < 2 ^ 21) :
    ∃ s, ReflTransGen (OpenStep 0 (fun _ => false)) openInit s ∧ Asked (k + 1) s := by
  induction k with
  | zero => exact asked_once
  | succ k ih =>
      obtain ⟨s, hrun, hs⟩ := ih (by omega)
      obtain ⟨t, hnext, ht⟩ := hs.next (by omega)
      exact ⟨t, hrun.trans hnext, ht⟩

end Asked

/-- The client asks `2 ^ 21` times: the id is negative, and the open fails although no
file is open. -/
theorem not_open_alloc_sound : ¬ ∀ (fs : Nat) (isPipe : Nat → Bool) (s₀ s : OpenState),
    ServeInit fs s₀ → ReflTransGen (OpenStep fs isPipe) s₀ s → AllocSound fs isPipe s := by
  intro hall
  obtain ⟨s, hrun, hasked⟩ := asked_many 2097150 (by omega)
  have hsound := hall 0 (fun _ => false) openInit s.asks openInit_serveInit
    (hrun.tail hasked.asks)
  have hnonneg := (hsound.taken _ 0 1 hasked.scans (takesSlot_hand rfl rfl)).1
  rw [hand_fileid, hasked.nextId, slotId_nonneg (i := 0) (by decide)] at hnonneg
  omega

/-- A path is asked for, and a slot taken. -/
theorem open_alloc_sound_asks : ∃ s s', ReflTransGen (fun s s' =>
    OpenStep 0 (fun _ => false) s s' ∧ NextIdFits 0 s') openInit s ∧
      TakesSlot s s' 0 1 ∧ 0 ≤ (s'.fileid 0).toInt := by
  have hfits : NextIdFits 0 openInit.asks := by
    intro i e hscan _ _
    cases hscan
    change (0 + 1) % 2 ^ 22 < 2 ^ 21
    omega
  have hrun : ReflTransGen (fun s s' => OpenStep 0 (fun _ => false) s s' ∧ NextIdFits 0 s')
      openInit openInit.asks := .single ⟨openInit_asks, hfits⟩
  let s₁ := openInit.asks.setUsers 0 oneSlot
  have hscan : OpenStep 0 (fun _ => false) openInit.asks ((s₁.bump 0).hand 0 1) :=
    .scanFresh rfl (by decide) rfl freshUsers_refs
  have htake : TakesSlot openInit.asks ((s₁.bump 0).hand 0 1) 0 1 := takesSlot_hand rfl rfl
  exact ⟨openInit.asks, _, hrun, htake,
    ((open_alloc_sound openInit_serveInit hrun).taken _ 0 1 hscan htake).1⟩

end Jos

import Jos.PipeSafety

/-!
# A pipe is found closed only when its other end is gone

The invariant `PipeInv` of a run says that every routine in progress is safe, that
a count stays right until its reader is rescheduled, and that an end which is gone
does not come back.
-/

namespace Jos

open Relation

variable {isPipe : Nat → Bool} {P : Pipe} {s s' : PipeState} {e : Nat}

/-! ## What is shown, and when -/

/-- `pp_ref`, which has 16 bits. -/
def Users.ppRef (u : Users) (p : Nat) : Nat := u.refs p % 65536

/-- The references of the buffer cover both ends, and who was told that the pipe is
closed holds an end whose other end is gone. -/
structure ClosedSound (P : Pipe) (s : PipeState) : Prop where
  ends_le : s.users.ppRef P.rfd + s.users.ppRef P.wfd ≤ s.users.ppRef P.buf
  closed : ∀ e asker i got n, s.job e = .closed asker i got n →
    ∃ q, (s.users.spaces e).page (fdPage i) = some q ∧ P.IsEnd q ∧
      s.users.refs (P.other q) = 0

/-- Environments hold ends of the pipe, and nothing is in progress. -/
structure PipeHeld (isPipe : Nat → Bool) (P : Pipe) (s : PipeState) : Prop where
  rfd_kind : isPipe P.rfd = true
  wfd_kind : isPipe P.wfd = true
  slot : ∀ e, s.users.life e ≠ .free → e < nenv
  alive : ∀ e, s.users.life e = .alive → P.Matched (s.users.spaces e)
  plain : ∀ e, s.users.life e ≠ .alive → P.Plain (s.users.spaces e)
  idle : ∀ e, s.job e = .idle

/-- Environment `e` has an end. -/
def HoldsEnd (P : Pipe) (s : PipeState) (e : Nat) : Prop :=
  ∃ v q, (s.users.spaces e).page v = some q ∧ P.IsEnd q

/-- Nobody but `e` stands between the two counts of `_pipeisclosed` without having
been rescheduled since it read `env_runs`. -/
def NobodyCounts (s : PipeState) (e : Nat) : Prop :=
  ∀ e' asker i got n r a, e' ≠ e → s.job e' = .ask asker i got n (.first r a) →
    s.runs e' ≠ r

/-- `env_runs` as `_pipeisclosed` read it. -/
def Stage.runs? : Stage → Option Nat
  | start => none
  | counted r => some r
  | first r _ => some r
  | second r _ => some r

/-- The events for which the code does what it is meant to. -/
def PipeEvent.Clean (P : Pipe) (s : PipeState) : PipeEvent → Prop
  | call _ (.close _) => True
  | call e (.dup _ new) => HoldsEnd P s e → 0 ≤ new ∧ new < 32
  | call e .fork => ¬ HoldsEnd P s e
  | call e (.spawn _ _) => ¬ HoldsEnd P s e
  | ask _ _ _ _ => True
  | work e => (∃ c, s.job e = .lib c) → NobodyCounts s e
  | exit e => NobodyCounts s e
  -- the 32 bits of `env_runs` do not come round
  | resched e => ∀ asker i got n stage r, s.job e = .ask asker i got n stage →
      stage.runs? = some r → s.runs e + 1 < r + 2 ^ 32

/-! ## The invariant -/

/-- What the space of an environment looks like, given what it is doing. -/
def JobSafe (P : Pipe) (m : Space) : Job → Prop
  | .idle => P.Matched m
  | .lib c => P.Paired m ∧ P.Safe P.Matched c m
  | .loop _ i _ _ =>
      P.Matched m ∧ i < 32 ∧ ∃ q, m.page (fdPage i) = some q ∧ P.IsEnd q
  | .ask _ i _ _ _ =>
      P.Matched m ∧ i < 32 ∧ ∃ q, m.page (fdPage i) = some q ∧ P.IsEnd q
  | .closed _ i _ _ =>
      P.Matched m ∧ i < 32 ∧ ∃ q, m.page (fdPage i) = some q ∧ P.IsEnd q

/-- The other end of descriptor `i` of environment `e` is gone. -/
def OtherGone (P : Pipe) (u : Users) (e i : Nat) : Prop :=
  ∀ q, (u.spaces e).page (fdPage i) = some q → P.IsEnd q → u.refs (P.other q) = 0

/-- What the counts of an environment say. -/
def Told (P : Pipe) (u : Users) (e runs : Nat) : Job → Prop
  | .ask _ i _ _ (.first r a) => runs = r → a = u.pageref e (fdPage i)
  | .ask _ i _ _ (.second r ret) => runs = r → ret = true → OtherGone P u e i
  | .closed _ i _ _ => OtherGone P u e i
  | _ => True

/-- The number of runs that `_pipeisclosed` compares determines the count. -/
def Counted (runs : Nat) : Job → Prop
  | .ask _ _ _ _ stage => ∀ r, stage.runs? = some r → r ≤ runs ∧ runs < r + 2 ^ 32
  | _ => True

structure PipeInv (isPipe : Nat → Bool) (P : Pipe) (s : PipeState) : Prop where
  rfd_kind : isPipe P.rfd = true
  wfd_kind : isPipe P.wfd = true
  slot : ∀ e, s.users.life e ≠ .free → e < nenv
  safe : ∀ e, s.users.life e = .alive → JobSafe P (s.users.spaces e) (s.job e)
  plain : ∀ e, s.users.life e ≠ .alive → P.Plain (s.users.spaces e)
  idle : ∀ e, s.users.life e ≠ .alive → s.job e = .idle
  told : ∀ e, Told P s.users e (s.runs e) (s.job e)
  counted : ∀ e, Counted (s.runs e) (s.job e)

theorem PipeHeld.inv (h : PipeHeld isPipe P s) : PipeInv isPipe P s where
  rfd_kind := h.rfd_kind
  wfd_kind := h.wfd_kind
  slot := h.slot
  safe := fun e he => by
    rw [h.idle e]
    exact h.alive e he
  plain := h.plain
  idle := fun e _ => h.idle e
  told := fun e => by
    rw [h.idle e]
    trivial
  counted := fun e => by
    rw [h.idle e]
    trivial

theorem JobSafe.paired {m : Space} {j : Job} (h : JobSafe P m j) : P.Paired m := by
  cases j with
  | idle => exact Pipe.Matched.paired h
  | lib c => exact h.1
  | loop asker i got n => exact h.1.paired
  | ask asker i got n stage => exact h.1.paired
  | closed asker i got n => exact h.1.paired

theorem PipeInv.paired (h : PipeInv isPipe P s) (e : Nat) :
    P.Paired (s.users.spaces e) := by
  by_cases he : s.users.life e = .alive
  · exact (h.safe e he).paired
  · exact (h.plain e he).paired

theorem PipeInv.refs_lt (h : PipeInv isPipe P s) :
    s.users.refs P.rfd + s.users.refs P.wfd ≤ s.users.refs P.buf ∧
      s.users.refs P.buf < 65536 := by
  have hbuf := Pipe.refs_buf_le h.paired
  exact ⟨Pipe.refs_ends_le h.paired, by omega⟩

theorem PipeInv.sound (h : PipeInv isPipe P s) : ClosedSound P s where
  ends_le := by
    have hle := h.refs_lt
    unfold Users.ppRef
    omega
  closed := fun e asker i got n hj => by
    have halive : s.users.life e = .alive := by
      by_contra hna
      rw [h.idle e hna] at hj
      exact absurd hj (by simp)
    have hsafe := h.safe e halive
    rw [hj] at hsafe
    obtain ⟨-, -, q, hq, he⟩ := hsafe
    have htold := h.told e
    rw [hj] at htold
    exact ⟨q, hq, he, htold q hq he⟩

/-! ## One step -/

theorem PipeState.setJob_job_self {j : Job} : (s.setJob e j).job e = j := by
  simp [PipeState.setJob]

theorem PipeState.setJob_job_of_ne {j : Job} {x : Nat} (h : x ≠ e) :
    (s.setJob e j).job x = s.job x := by
  simp [PipeState.setJob, h]

/-- An environment goes on, and the address spaces stay as they are. -/
theorem PipeInv.setJob {j : Job} {rpos wpos : U32} (h : PipeInv isPipe P s)
    (he : s.users.life e = .alive) (hsafe : JobSafe P (s.users.spaces e) j)
    (htold : Told P s.users e (s.runs e) j) (hcount : Counted (s.runs e) j) :
    PipeInv isPipe P { s.setJob e j with rpos := rpos, wpos := wpos } where
  rfd_kind := h.rfd_kind
  wfd_kind := h.wfd_kind
  slot := h.slot
  safe := fun x hx => by
    by_cases hxe : x = e
    · subst hxe
      change JobSafe P (s.users.spaces x) ((s.setJob x j).job x)
      rw [PipeState.setJob_job_self]
      exact hsafe
    · change JobSafe P (s.users.spaces x) ((s.setJob e j).job x)
      rw [PipeState.setJob_job_of_ne hxe]
      exact h.safe x hx
  plain := h.plain
  idle := fun x hx => by
    have hxe : x ≠ e := by
      rintro rfl
      exact hx he
    change (s.setJob e j).job x = .idle
    rw [PipeState.setJob_job_of_ne hxe]
    exact h.idle x hx
  told := fun x => by
    change Told P s.users x (s.runs x) ((s.setJob e j).job x)
    by_cases hxe : x = e
    · subst hxe
      rw [PipeState.setJob_job_self]
      exact htold
    · rw [PipeState.setJob_job_of_ne hxe]
      exact h.told x
  counted := fun x => by
    change Counted (s.runs x) ((s.setJob e j).job x)
    by_cases hxe : x = e
    · subst hxe
      rw [PipeState.setJob_job_self]
      exact hcount
    · rw [PipeState.setJob_job_of_ne hxe]
      exact h.counted x

/-- What was counted stays right when other spaces change, unless somebody stands
between the two counts. -/
theorem Told.mono {u u' : Users} {runs : Nat} {j : Job} (h : Told P u e runs j)
    (hspace : u'.spaces e = u.spaces e)
    (hrefs : ∀ q, P.IsEnd q → u.refs q = 0 → u'.refs q = 0)
    (hfirst : ∀ asker i got n r a, j = .ask asker i got n (.first r a) → runs ≠ r) :
    Told P u' e runs j := by
  have gone : ∀ {i : Nat}, OtherGone P u e i → OtherGone P u' e i := by
    intro i hgone q hq he
    rw [hspace] at hq
    exact hrefs _ Pipe.other_isEnd (hgone q hq he)
  cases j with
  | idle => trivial
  | lib c => trivial
  | loop asker i got n => trivial
  | closed asker i got n => exact gone h
  | ask asker i got n stage =>
      cases stage with
      | start => trivial
      | counted r => trivial
      | first r a => exact fun hr => absurd hr (hfirst asker i got n r a rfl)
      | second r ret => exact fun hr hret => gone (h hr hret)

/-- A reader that is rescheduled does not trust what it counted. -/
theorem Told.resched {u : Users} {runs : Nat} {j : Job} (h : Told P u e runs j)
    (hcount : Counted runs j) : Told P u e (runs + 1) j := by
  cases j with
  | idle => trivial
  | lib c => trivial
  | loop asker i got n => trivial
  | closed asker i got n => exact h
  | ask asker i got n stage =>
      cases stage with
      | start => trivial
      | counted r => trivial
      | first r a =>
          intro hr
          have hle := (hcount r rfl).1
          omega
      | second r ret =>
          intro hr
          have hle := (hcount r rfl).1
          omega

theorem Counted.resched {runs : Nat} {j : Job} (h : Counted runs j)
    (hlt : ∀ asker i got n stage r, j = .ask asker i got n stage →
      stage.runs? = some r → runs + 1 < r + 2 ^ 32) :
    Counted (runs + 1) j := by
  cases j with
  | idle => trivial
  | lib c => trivial
  | loop asker i got n => trivial
  | closed asker i got n => trivial
  | ask asker i got n stage =>
      intro r hr
      have hle := (h r hr).1
      exact ⟨by omega, hlt asker i got n stage r rfl hr⟩

/-- One step of a routine. -/
theorem PipeInv.lib {c c' : LibCode} {u : Users} (h : PipeInv isPipe P s)
    (he : s.users.life e = .alive) (hj : s.job e = .lib c)
    (hs : LibCode.Step P.pages e c s.users c' u) (hquiet : NobodyCounts s e) :
    PipeInv isPipe P ((s.setUsers u).setJob e (.lib c')) := by
  have hsafe := h.safe e he
  rw [hj] at hsafe
  have heff := hs.effect
  have hlt : e < nenv := h.slot e (by simp [he])
  refine ⟨h.rfd_kind, h.wfd_kind, fun x hx => heff.slot h.slot hx, ?_, ?_, ?_, ?_, ?_⟩
  · intro x hx
    by_cases hxe : x = e
    · subst hxe
      rw [PipeState.setJob_job_self]
      exact hs.safe he hsafe.1 hsafe.2
    rw [PipeState.setJob_job_of_ne hxe]
    by_cases hxa : s.users.life x = .alive
    · change JobSafe P (u.spaces x) (s.job x)
      rw [(heff.alive hxa hxe).2]
      exact h.safe x hxa
    · change JobSafe P (u.spaces x) (s.job x)
      rw [h.idle x hxa]
      exact (hs.plain he hsafe.2 h.plain hxa).matched
  · intro x hx
    have hxa : s.users.life x ≠ .alive := by
      intro hxa
      by_cases hxe : x = e
      · subst hxe
        exact hx (heff.self he)
      · exact hx (heff.alive hxa hxe).1
    exact hs.plain he hsafe.2 h.plain hxa
  · intro x hx
    have hxe : x ≠ e := by
      rintro rfl
      exact hx (heff.self he)
    rw [PipeState.setJob_job_of_ne hxe]
    refine h.idle x (fun hxa => hx (heff.alive hxa hxe).1)
  · intro x
    by_cases hxe : x = e
    · subst hxe
      rw [PipeState.setJob_job_self]
      trivial
    rw [PipeState.setJob_job_of_ne hxe]
    by_cases hxa : s.users.life x = .alive
    · refine (h.told x).mono (heff.alive hxa hxe).2
        (fun q hq hz => heff.refs_eq_zero hlt hq.mem hz) ?_
      exact fun asker i got n r a hjx => hquiet x asker i got n r a hxe hjx
    · change Told P u x (s.runs x) (s.job x)
      rw [h.idle x hxa]
      trivial
  · intro x
    by_cases hxe : x = e
    · subst hxe
      rw [PipeState.setJob_job_self]
      trivial
    · rw [PipeState.setJob_job_of_ne hxe]
      exact h.counted x

/-- An environment goes away. -/
theorem PipeInv.exit (h : PipeInv isPipe P s) (he : s.users.life e = .alive)
    (hquiet : NobodyCounts s e) :
    PipeInv isPipe P ((s.setUsers ((s.users.setLife e .free).setSpace e
      (fun _ => none))).setJob e .idle) := by
  have heq : ∀ {x}, x ≠ e → ((s.users.setLife e .free).setSpace e
      (fun _ => none)).life x = s.users.life x ∧
      ((s.users.setLife e .free).setSpace e (fun _ => none)).spaces x =
        s.users.spaces x := by
    intro x hxe
    rw [Users.setSpace_life, Users.setLife_of_ne hxe, Users.setSpace_of_ne hxe]
    exact ⟨rfl, rfl⟩
  have hself : ((s.users.setLife e .free).setSpace e (fun _ => none)).life e =
      .free := by simp
  have hempty : P.Plain (fun _ => none) := fun v q hq => by
    simp [Space.page] at hq
  have hrefs : ∀ q, s.users.refs q = 0 →
      ((s.users.setLife e .free).setSpace e (fun _ => none)).refs q = 0 := by
    intro q hz
    rw [Users.refs_eq_zero] at hz ⊢
    intro x v hx hv hq
    by_cases hxe : x = e
    · subst hxe
      simp [Space.page] at hq
    · rw [(heq hxe).2] at hq
      exact hz x v hx hv hq
  refine ⟨h.rfd_kind, h.wfd_kind, ?_, ?_, ?_, ?_, ?_, ?_⟩
  · intro x hx
    by_cases hxe : x = e
    · subst hxe
      exact h.slot x (by simp [he])
    · exact h.slot x (fun hf => hx ((heq hxe).1.trans hf))
  · intro x hx
    by_cases hxe : x = e
    · subst hxe
      exact absurd (hself.symm.trans hx) (by simp)
    · rw [PipeState.setJob_job_of_ne hxe]
      change JobSafe P (((s.users.setLife e .free).setSpace e
        (fun _ => none)).spaces x) (s.job x)
      rw [(heq hxe).2]
      exact h.safe x ((heq hxe).1.symm.trans hx)
  · intro x hx
    change P.Plain (((s.users.setLife e .free).setSpace e (fun _ => none)).spaces x)
    by_cases hxe : x = e
    · subst hxe
      rw [Users.setSpace_self]
      exact hempty
    · rw [(heq hxe).2]
      exact h.plain x (fun ha => hx ((heq hxe).1.trans ha))
  · intro x hx
    by_cases hxe : x = e
    · subst hxe
      exact PipeState.setJob_job_self
    · rw [PipeState.setJob_job_of_ne hxe]
      exact h.idle x (fun ha => hx ((heq hxe).1.trans ha))
  · intro x
    by_cases hxe : x = e
    · subst hxe
      rw [PipeState.setJob_job_self]
      trivial
    · rw [PipeState.setJob_job_of_ne hxe]
      exact (h.told x).mono (heq hxe).2 (fun q _ hz => hrefs q hz)
        (fun asker i got n r a hjx => hquiet x asker i got n r a hxe hjx)
  · intro x
    by_cases hxe : x = e
    · subst hxe
      rw [PipeState.setJob_job_self]
      trivial
    · rw [PipeState.setJob_job_of_ne hxe]
      exact h.counted x

/-- With equal counts the other end is gone. -/
theorem PipeInv.gone {i : Nat} (h : PipeInv isPipe P s)
    (heq : s.users.pageref e (fdPage i) = s.users.pageref e (dataPage i))
    (hi : i < 32) : OtherGone P s.users e i := by
  intro q hq hend
  have hbuf := (h.paired e).data_buf hi hq hend
  unfold Users.pageref at heq
  rw [hq, hbuf] at heq
  have heq : s.users.refs q % 65536 = s.users.refs P.buf % 65536 := heq
  obtain ⟨hle, hlt⟩ := h.refs_lt
  unfold Pipe.other
  rcases hend with rfl | rfl
  · rw [if_pos rfl]
    omega
  · rw [if_neg P.rfd_ne_wfd.symm]
    omega

/-- One step of a loop of `lib/pipe.c`. -/
theorem PipeInv.loop {j j' : Job} {rpos wpos : U32} (h : PipeInv isPipe P s)
    (he : s.users.life e = .alive) (hj : s.job e = j)
    (hs : LoopStep s e j j' rpos wpos) :
    PipeInv isPipe P { s.setJob e j' with rpos := rpos, wpos := wpos } := by
  have hsafe := h.safe e he
  have htold := h.told e
  have hcount := h.counted e
  rw [hj] at hsafe htold hcount
  cases hs with
  | full => exact h.setJob he hsafe.1 trivial trivial
  | take _ _ => exact h.setJob he hsafe trivial trivial
  | some _ _ _ => exact h.setJob he hsafe.1 trivial trivial
  | empty _ _ => exact h.setJob he hsafe trivial (by simp [Counted, Stage.runs?])
  | put _ _ => exact h.setJob he hsafe trivial trivial
  | wait _ _ => exact h.setJob he hsafe trivial (by simp [Counted, Stage.runs?])
  | start => exact h.setJob he hsafe trivial (by simp [Counted, Stage.runs?])
  | first => exact h.setJob he hsafe (fun _ => rfl) hcount
  | @second asker i got n r a =>
      refine h.setJob he hsafe (fun hr hret => ?_) hcount
      have hfirst : a = s.users.pageref e (fdPage i) := htold hr
      have hsecond : a = s.users.pageref e (dataPage i) := of_decide_eq_true hret
      exact h.gone (hfirst.symm.trans hsecond) hsafe.2.1
  | again _ => exact h.setJob he hsafe trivial (by simp [Counted, Stage.runs?])
  | @closed asker i got n r hr =>
      refine h.setJob he hsafe (htold ?_ rfl) trivial
      have hc := hcount r rfl
      omega
  | @«open» asker i got n r _ =>
      by_cases hask : asker = .pipeisclosed
      · rw [if_pos hask]
        exact h.setJob he hsafe.1 trivial trivial
      · rw [if_neg hask]
        exact h.setJob he hsafe trivial trivial
  | «return» => exact h.setJob he hsafe.1 trivial trivial

/-- One event. -/
theorem PipeInv.step {ev : PipeEvent} (h : PipeInv isPipe P s)
    (hs : PipeStep isPipe P s ev s') (hclean : ev.Clean P s) :
    PipeInv isPipe P s' := by
  cases hs with
  | @call e c he hj =>
      have hm : P.Matched (s.users.spaces e) := by
        have hsafe := h.safe e he
        rw [hj] at hsafe
        exact hsafe
      have plain : ¬ HoldsEnd P s e → ∀ d, P.Safe P.Matched d (s.users.spaces e) := by
        intro hno d
        have hplain : P.Plain (s.users.spaces e) :=
          hm.plain (fun v q hq hend => hno ⟨v, q, hq, hend⟩)
        exact (hplain.safe d).mono (fun _ hm => hm.matched)
      refine h.setJob he ⟨hm.paired, ?_⟩ trivial trivial
      cases c with
      | close i =>
          exact (hm.safe_close h.rfd_kind h.wfd_kind i).mono (fun _ hm => hm.1)
      | dup old new =>
          by_cases hend : HoldsEnd P s e
          · obtain ⟨hnew, hlt⟩ := hclean hend
            exact hm.safe_dup h.rfd_kind h.wfd_kind old hnew hlt
          · exact plain hend _
      | fork => exact plain hclean _
      | spawn fits image => exact plain hclean _
  | @ask e i n q asker he hj hi hq hend =>
      have hm : P.Matched (s.users.spaces e) := by
        have hsafe := h.safe e he
        rw [hj] at hsafe
        exact hsafe
      by_cases hask : asker = .pipeisclosed
      · rw [if_pos hask]
        exact h.setJob he ⟨hm, hi, q, hq, hend⟩ trivial (by simp [Counted, Stage.runs?])
      · rw [if_neg hask]
        exact h.setJob he ⟨hm, hi, q, hq, hend⟩ trivial trivial
  | lib he hj hstep => exact h.lib he hj hstep (hclean ⟨_, hj⟩)
  | ret he hj =>
      have hsafe := h.safe _ he
      rw [hj] at hsafe
      exact h.setJob he hsafe.2 trivial trivial
  | loop he hj hstep => exact h.loop he hj hstep
  | exit he => exact h.exit he hclean
  | @resched e he =>
      refine ⟨h.rfd_kind, h.wfd_kind, h.slot, h.safe, h.plain, h.idle, ?_, ?_⟩
      · intro x
        change Told P s.users x (Function.update s.runs e (s.runs e + 1) x) (s.job x)
        by_cases hxe : x = e
        · subst hxe
          rw [Function.update_self]
          exact (h.told x).resched (h.counted x)
        · rw [Function.update_of_ne hxe]
          exact h.told x
      · intro x
        change Counted (Function.update s.runs e (s.runs e + 1) x) (s.job x)
        by_cases hxe : x = e
        · subst hxe
          rw [Function.update_self]
          exact (h.counted x).resched
            (fun asker i got n stage r hj hr => hclean asker i got n stage r hj hr)
        · rw [Function.update_of_ne hxe]
          exact h.counted x

/-- In a run of clean events the references of the buffer cover those of both
ends, and a pipe is found closed only when its other end is gone. -/
theorem closed_sound {isPipe : Nat → Bool} {P : Pipe} {s₀ s : PipeState}
    (h : PipeHeld isPipe P s₀)
    (hrun : ReflTransGen
      (fun s s' => ∃ ev, PipeEvent.Clean P s ev ∧ PipeStep isPipe P s ev s') s₀ s) :
    ClosedSound P s := by
  have hinv : PipeInv isPipe P s := by
    induction hrun with
    | refl => exact h.inv
    | tail _ hstep ih =>
        obtain ⟨ev, hclean, hstep⟩ := hstep
        exact ih.step hstep hclean
  exact hinv.sound

/-! ## `fork` by an environment that holds an end -/

section ForkedPipe

/-- A pipe, and two environments that read from it; the first can write, too. -/
def samplePipe : Pipe where
  rfd := 1
  wfd := 2
  buf := 3
  rfd_ne_wfd := by decide
  rfd_ne_buf := by decide
  wfd_ne_buf := by decide

def sampleKind (q : Nat) : Bool := decide (q ≤ 2)

def sharePte (q : Nat) : UserPte := ⟨q, pteP ||| pteU ||| pteW ||| pteShare⟩

def bareSpace : Space := fun _ => none

def bareUsers : Users where
  spaces := fun _ => bareSpace
  life := fun e => if e < 2 then .alive else .free

def sampleUsers : Users :=
  (((((bareUsers.set 0 0xD0020 (some (sharePte 3))).set 0 0xD0000
    (some (sharePte 1))).set 0 0xD0021 (some (sharePte 3))).set 0 0xD0001
    (some (sharePte 2))).set 1 0xD0020 (some (sharePte 3))).set 1 0xD0000
    (some (sharePte 1))

def sampleState : PipeState where
  users := sampleUsers
  job := fun _ => .idle
  runs := fun _ => 0
  rpos := 0
  wpos := 0

theorem bareUsers_refs (p : Nat) : bareUsers.refs p = 0 := by
  rw [Users.refs_eq_zero]
  intro e v _ _
  simp [bareUsers, bareSpace, Space.page]

theorem bareSpace_plain {P : Pipe} : P.Plain bareSpace := by
  intro v q hq
  simp [bareSpace, Space.page] at hq

theorem sample_space_zero : sampleUsers.spaces 0 =
    (((bareSpace.set (dataPage (0 : Nat)) (some (sharePte 3))).set
      (fdPage (0 : Nat)) (some (sharePte 1))).set
      (dataPage (1 : Nat)) (some (sharePte 3))).set
      (fdPage (1 : Nat)) (some (sharePte 2)) := by
  simp [sampleUsers, Users.set, bareUsers, fdPage, dataPage]

theorem sample_space_one : sampleUsers.spaces 1 =
    (bareSpace.set (dataPage (0 : Nat)) (some (sharePte 3))).set
      (fdPage (0 : Nat)) (some (sharePte 1)) := by
  simp [sampleUsers, Users.set, bareUsers, fdPage, dataPage]

theorem sample_space_of_le {e : Nat} (he : 2 ≤ e) : sampleUsers.spaces e = bareSpace := by
  have h₀ : e ≠ 0 := by omega
  have h₁ : e ≠ 1 := by omega
  simp [sampleUsers, Users.set, bareUsers, h₀, h₁]

theorem sample_life (e : Nat) :
    sampleUsers.life e = if e < 2 then .alive else .free := rfl

theorem sampleHeld : PipeHeld sampleKind samplePipe sampleState where
  rfd_kind := by decide
  wfd_kind := by decide
  slot := fun e he => by
    have hlt : e < 2 := by
      by_contra hn
      exact he (by simp [sampleState, sample_life, hn])
    unfold nenv
    omega
  alive := fun e he => by
    have hlt : e < 2 := by
      by_contra hn
      simp [sampleState, sample_life, hn] at he
    have hopen : samplePipe.Matched ((bareSpace.set (dataPage (0 : Nat))
        (some (sharePte 3))).set (fdPage (0 : Nat)) (some (sharePte 1))) :=
      bareSpace_plain.matched.openEnd (by decide) rfl rfl (Or.inl rfl)
    obtain rfl | rfl : e = 0 ∨ e = 1 := by omega
    · change samplePipe.Matched (sampleUsers.spaces 0)
      rw [sample_space_zero]
      exact hopen.openEnd (by decide) rfl rfl (Or.inr rfl)
    · change samplePipe.Matched (sampleUsers.spaces 1)
      rw [sample_space_one]
      exact hopen
  plain := fun e he => by
    have hle : 2 ≤ e := by
      by_contra hn
      have hlt : e < 2 := by omega
      exact he (by simp [sampleState, sample_life, hlt])
    change samplePipe.Plain (sampleUsers.spaces e)
    rw [sample_space_of_le hle]
    exact bareSpace_plain
  idle := fun _ => rfl

theorem sample_refs (q : Nat) : sampleUsers.refs q =
    (if 3 = q then 1 else 0) + (if 1 = q then 1 else 0) + (if 3 = q then 1 else 0) +
      (if 2 = q then 1 else 0) + (if 3 = q then 1 else 0) +
      (if 1 = q then 1 else 0) := by
  unfold sampleUsers
  rw [Users.refs_set_some (by decide) (by decide) rfl,
    Users.refs_set_some (by decide) (by decide) rfl,
    Users.refs_set_some (by decide) (by decide) rfl,
    Users.refs_set_some (by decide) (by decide) rfl,
    Users.refs_set_some (by decide) (by decide) rfl,
    Users.refs_set_some (by decide) (by decide) rfl, bareUsers_refs]
  simp only [sharePte, Nat.zero_add]
  rfl

/-- What the loop of `fork` does with the entry of page `v`. -/
def forkPage (child v n : Nat) (next : LibCode) : Option UserPte → LibCode
  | none => LibCode.forkPages child (v + 1) n next
  | some w =>
      if HasFlag w.perm pteU then
        LibCode.duppage child v w (LibCode.forkPages child (v + 1) n next)
      else LibCode.forkPages child (v + 1) n next

theorem forkPages_succ {child v n : Nat} {next : LibCode} :
    LibCode.forkPages child v (n + 1) next = .look v (forkPage child v n next) := by
  have heq : forkPage child v n next = fun w =>
      match w with
      | none => LibCode.forkPages child (v + 1) n next
      | some w =>
          if HasFlag w.perm pteU then
            LibCode.duppage child v w (LibCode.forkPages child (v + 1) n next)
          else LibCode.forkPages child (v + 1) n next := by
    funext w
    cases w with
    | none => rfl
    | some w => rfl
  rw [heq]
  rfl

/-- `fork` passes over pages that are not mapped. -/
theorem forkPages_skip {child n : Nat} {next : LibCode} (k : Nat) :
    ∀ {v : Nat} {s : PipeState}, s.users.life e = .alive →
      s.job e = .lib (LibCode.forkPages child v (k + n) next) →
      (∀ x, v ≤ x → x < v + k → s.users.spaces e x = none) →
      ReflTransGen (fun s s' => ∃ ev, PipeStep isPipe P s ev s') s
        (s.setJob e (.lib (LibCode.forkPages child (v + k) n next))) := by
  induction k with
  | zero =>
      intro v s he hj _
      have heq : s.setJob e (.lib (LibCode.forkPages child (v + 0) n next)) = s := by
        unfold PipeState.setJob
        rw [Nat.zero_add] at hj
        rw [Nat.add_zero, ← hj, Function.update_eq_self]
      rw [heq]
  | succ k ih =>
      intro v s he hj hnone
      have hcode : LibCode.forkPages child v (k + 1 + n) next =
          .look v (forkPage child v (k + n) next) := by
        rw [Nat.add_right_comm]
        exact forkPages_succ
      rw [hcode] at hj
      have hstep : PipeStep isPipe P s (.work e)
          (s.setJob e (.lib (LibCode.forkPages child (v + 1) (k + n) next))) := by
        have hlook : PipeStep isPipe P s (.work e)
            ((s.setUsers s.users).setJob e
              (.lib (forkPage child v (k + n) next (s.users.spaces e v)))) :=
          .lib he hj .look
        rw [hnone v (Nat.le_refl v) (by omega)] at hlook
        exact hlook
      have hrest := ih (v := v + 1)
        (s := s.setJob e (.lib (LibCode.forkPages child (v + 1) (k + n) next))) he
        PipeState.setJob_job_self (fun x hx hlt => hnone x (by omega) (by omega))
      have heq : (s.setJob e (.lib (LibCode.forkPages child (v + 1) (k + n) next))).setJob e
          (.lib (LibCode.forkPages child (v + 1 + k) n next)) =
          s.setJob e (.lib (LibCode.forkPages child (v + (k + 1)) n next)) := by
        unfold PipeState.setJob
        rw [Function.update_idem, Nat.add_right_comm v 1 k, Nat.add_assoc]
      rw [heq] at hrest
      exact ReflTransGen.head ⟨_, hstep⟩ hrest

/-- Who finds equal counts is told that the pipe is closed. -/
theorem told_closed {i n q : Nat} (he : s.users.life e = .alive) (hj : s.job e = .idle)
    (hi : i < 32) (hq : (s.users.spaces e).page (fdPage i) = some q) (hend : P.IsEnd q)
    (heq : s.users.pageref e (fdPage i) = s.users.pageref e (dataPage i)) :
    ReflTransGen (fun s s' => ∃ ev, PipeStep isPipe P s ev s') s
      (s.setJob e (.closed .pipeisclosed i 0 n)) := by
  have again : ∀ j j' : Job, (s.setJob e j).setJob e j' = s.setJob e j' := by
    intro j j'
    unfold PipeState.setJob
    rw [Function.update_idem]
  have next : ∀ {j j' : Job}, LoopStep (s.setJob e j) e j j' s.rpos s.wpos →
      ∃ ev, PipeStep isPipe P (s.setJob e j) ev (s.setJob e j') := by
    intro j j' hstep
    have hloop : PipeStep isPipe P (s.setJob e j) (.work e)
        ((s.setJob e j).setJob e j') :=
      .loop he PipeState.setJob_job_self hstep
    rw [again] at hloop
    exact ⟨_, hloop⟩
  have hask : PipeStep isPipe P s (.ask e .pipeisclosed i n)
      (s.setJob e (.ask .pipeisclosed i 0 n .start)) :=
    PipeStep.ask he hj hi hq hend
  refine .head ⟨_, hask⟩ (.head (next .start) (.head (next .first) ?_))
  refine .head (next .second) (.single (next ?_))
  change LoopStep _ e (.ask .pipeisclosed i 0 n (.second (s.runs e) (decide
    (s.users.pageref e (fdPage i) = s.users.pageref e (dataPage i))))) _ _ _
  rw [decide_eq_true heq]
  exact .closed rfl

/-- The child that the first environment makes. -/
def childUsers : Users :=
  (sampleUsers.setLife 2 (.embryo 0)).setSpace 2 (fun _ => none)

theorem childUsers_spaces : childUsers.spaces = sampleUsers.spaces := by
  unfold childUsers Users.setSpace
  have hbare : (fun _ => none) = sampleUsers.spaces 2 := (sample_space_of_le (by decide)).symm
  rw [hbare]
  exact Function.update_eq_self 2 sampleUsers.spaces

/-- The first descriptor page is copied; the buffer is not, yet. -/
def forkedUsers : Users := childUsers.set 2 0xD0000 (some ⟨1, pteSyscall⟩)

theorem forkedUsers_refs (q : Nat) :
    forkedUsers.refs q = sampleUsers.refs q + (if 1 = q then 1 else 0) := by
  have hrefs : childUsers.refs q = sampleUsers.refs q := by
    unfold Users.refs Users.entries
    rw [childUsers_spaces]
  have hnone : childUsers.spaces 2 0xD0000 = none := by
    rw [childUsers_spaces, sample_space_of_le (by decide)]
    rfl
  unfold forkedUsers
  rw [Users.refs_set_some (by decide) (by decide) hnone, hrefs]

theorem forkedUsers_space : forkedUsers.spaces 1 = sampleUsers.spaces 1 := by
  unfold forkedUsers
  rw [Users.set_space_of_ne (by decide), childUsers_spaces]

theorem lib_next {c c' : LibCode} {u : Users} (he : s.users.life e = .alive)
    (hs : LibCode.Step P.pages e c s.users c' u) :
    ∃ ev, PipeStep isPipe P (s.setJob e (.lib c)) ev
      ((s.setUsers u).setJob e (.lib c')) := by
  have hstep : PipeStep isPipe P (s.setJob e (.lib c)) (.work e)
      (((s.setJob e (.lib c)).setUsers u).setJob e (.lib c')) :=
    .lib he PipeState.setJob_job_self hs
  have heq : ((s.setJob e (.lib c)).setUsers u).setJob e (.lib c') =
      (s.setUsers u).setJob e (.lib c') := by
    unfold PipeState.setJob PipeState.setUsers
    rw [Function.update_idem]
  rw [heq] at hstep
  exact ⟨_, hstep⟩

/-- In the middle of the first environment's `fork`. -/
theorem fork_copies : ∃ c, ReflTransGen
    (fun s s' => ∃ ev, PipeStep sampleKind samplePipe s ev s') sampleState
      ((sampleState.setUsers forkedUsers).setJob 0 (.lib c)) := by
  let finish : LibCode := .allocChild 2 xstackPage (fun ok =>
    if ok then .start 2 .ret else .ret)
  have hcall : PipeStep sampleKind samplePipe sampleState (.call 0 .fork)
      (sampleState.setJob 0 (.lib LibCode.fork)) := .call rfl rfl
  have hexofork : ∃ ev, PipeStep sampleKind samplePipe
      (sampleState.setJob 0 (.lib LibCode.fork)) ev
      ((sampleState.setUsers childUsers).setJob 0
        (.lib (LibCode.forkPages 2 0 stackPages finish))) :=
    lib_next rfl (.exofork (c := 2) (by decide) rfl)
  have hnone : ∀ x, x < 0xD0000 → childUsers.spaces 0 x = none := by
    intro x hlt
    rw [childUsers_spaces, sample_space_zero]
    rw [Space.set_of_ne, Space.set_of_ne, Space.set_of_ne, Space.set_of_ne]
    · rfl
    all_goals
      first | rw [fdPage_nat (by decide)] | rw [dataPage_nat (by decide)]
      omega
  have hskip : ReflTransGen (fun s s' => ∃ ev, PipeStep sampleKind samplePipe s ev s')
      ((sampleState.setUsers childUsers).setJob 0
        (.lib (LibCode.forkPages 2 0 stackPages finish)))
      (((sampleState.setUsers childUsers).setJob 0
        (.lib (LibCode.forkPages 2 0 stackPages finish))).setJob 0
        (.lib (LibCode.forkPages 2 (0 + 0xD0000) 0x1EBFE finish))) :=
    forkPages_skip 0xD0000 rfl PipeState.setJob_job_self
      (fun x _ hlt => hnone x (by omega))
  have heq : ∀ j j', ((sampleState.setUsers childUsers).setJob 0 j).setJob 0 j' =
      (sampleState.setUsers childUsers).setJob 0 j' := by
    intro j j'
    unfold PipeState.setJob
    rw [Function.update_idem]
  rw [heq] at hskip
  have hlook : ∃ ev, PipeStep sampleKind samplePipe
      ((sampleState.setUsers childUsers).setJob 0
        (.lib (LibCode.forkPages 2 (0 + 0xD0000) 0x1EBFE finish))) ev
      ((sampleState.setUsers childUsers).setJob 0
        (.lib (LibCode.duppage 2 0xD0000 (sharePte 1)
          (LibCode.forkPages 2 0xD0001 0x1EBFD finish)))) := by
    rw [forkPages_succ]
    have hentry : childUsers.spaces 0 (0 + 0xD0000) = some (sharePte 1) := by
      rw [childUsers_spaces]
      rfl
    have hlook : ∃ ev, PipeStep sampleKind samplePipe
        ((sampleState.setUsers childUsers).setJob 0
          (.lib (.look (0 + 0xD0000) (forkPage 2 (0 + 0xD0000) 0x1EBFD finish)))) ev
        ((sampleState.setUsers childUsers).setJob 0 (.lib (forkPage 2 (0 + 0xD0000)
          0x1EBFD finish (childUsers.spaces 0 (0 + 0xD0000))))) :=
      lib_next rfl .look
    rw [hentry] at hlook
    exact hlook
  have hentry : (sampleState.setUsers childUsers).users.spaces 0 0xD0000 =
      some (sharePte 1) := by
    change childUsers.spaces 0 0xD0000 = some (sharePte 1)
    rw [childUsers_spaces]
    rfl
  have hcopy : ∃ ev, PipeStep sampleKind samplePipe
      ((sampleState.setUsers childUsers).setJob 0
        (.lib (LibCode.duppage 2 0xD0000 (sharePte 1)
          (LibCode.forkPages 2 0xD0001 0x1EBFD finish)))) ev
      ((sampleState.setUsers forkedUsers).setJob 0
        (.lib (LibCode.forkPages 2 0xD0001 0x1EBFD finish))) :=
    lib_next rfl (.copy (w := sharePte 1) rfl (by decide) (by decide)
      hentry (by decide))
  exact ⟨_, .head ⟨_, hcall⟩ (.head hexofork (hskip.trans (.head hlook (.single hcopy))))⟩

/-- The second environment reads, the first can still write, and the second is told
that the pipe is closed. -/
theorem not_closed_sound : ¬ ∀ (isPipe : Nat → Bool) (P : Pipe) (s₀ s : PipeState),
    PipeHeld isPipe P s₀ →
    ReflTransGen (fun s s' => ∃ ev, PipeStep isPipe P s ev s') s₀ s →
    ClosedSound P s := by
  intro hall
  obtain ⟨c, hrun⟩ := fork_copies
  have hpage : ∀ v, (forkedUsers.spaces 1).page v = (sampleUsers.spaces 1).page v := by
    intro v
    rw [forkedUsers_space]
  have hfd : (forkedUsers.spaces 1).page (fdPage (0 : Nat)) = some 1 := by
    rw [hpage]
    rfl
  have hbuf : (forkedUsers.spaces 1).page (dataPage (0 : Nat)) = some 3 := by
    rw [hpage]
    rfl
  have hcounts : forkedUsers.pageref 1 (fdPage (0 : Nat)) =
      forkedUsers.pageref 1 (dataPage (0 : Nat)) := by
    rw [Users.pageref_of_page hfd, Users.pageref_of_page hbuf, forkedUsers_refs,
      forkedUsers_refs, sample_refs, sample_refs]
    decide
  have htold : ReflTransGen (fun s s' => ∃ ev, PipeStep sampleKind samplePipe s ev s')
      ((sampleState.setUsers forkedUsers).setJob 0 (.lib c))
      (((sampleState.setUsers forkedUsers).setJob 0 (.lib c)).setJob 1
        (.closed .pipeisclosed 0 0 0)) :=
    told_closed rfl rfl (by decide) hfd (Or.inl rfl) hcounts
  have hsound := hall sampleKind samplePipe _ _ sampleHeld (hrun.trans htold)
  obtain ⟨q, hq, -, hgone⟩ := hsound.closed 1 .pipeisclosed 0 0 0
    PipeState.setJob_job_self
  obtain rfl : 1 = q := Option.some.inj (hfd.symm.trans hq)
  have hother : samplePipe.other 1 = 2 := by decide
  rw [hother] at hgone
  change forkedUsers.refs 2 = 0 at hgone
  rw [forkedUsers_refs, sample_refs] at hgone
  exact absurd hgone (by decide)

/-- An environment reads from an empty pipe. -/
theorem closed_sound_counting : ClosedSound samplePipe
    ((sampleState.setJob 1 (.loop .read 0 0 5)).setJob 1 (.ask .read 0 0 5 .start)) := by
  let looped := sampleState.setJob 1 (.loop .read 0 0 5)
  have hask : PipeStep sampleKind samplePipe sampleState (.ask 1 .read 0 5) looped :=
    .ask rfl rfl (by decide) rfl (Or.inl rfl)
  have hempty : PipeStep sampleKind samplePipe looped (.work 1)
      (looped.setJob 1 (.ask .read 0 0 5 .start)) :=
    .loop rfl PipeState.setJob_job_self (.empty (by decide) rfl)
  have hquiet : PipeEvent.Clean samplePipe looped (.work 1) := by
    rintro ⟨c, hc⟩
    exact absurd hc (by simp [looped, PipeState.setJob])
  exact closed_sound sampleHeld
    (.tail (.single ⟨.ask 1 .read 0 5, trivial, hask⟩) ⟨.work 1, hquiet, hempty⟩)

end ForkedPipe

end Jos

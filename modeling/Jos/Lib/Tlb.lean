import Jos.Lib.Prog
import Mathlib.Data.Set.Insert

/-!
# Translation caches

Processors translate addresses through the tables of the space they have loaded,
and keep the entries that they have read.  A cache is a set of pairs of a page
and an entry: it may grow at any moment by what the tables say, it loses a page
when its processor executes `invlpg`, and everything when it loads a space.

`Code` is a program of one processor in steps between which the other
processors go on; `collapse` forgets the steps.  `Sparing` is the weakest
precondition for such a program to leave the caches of the processors in user
mode fresh, at every step, and `Exec.fresh` is the proof that it does.

* `sparing_act`, `sparing_bind`, `sparing_forRange` are the rules.
-/

namespace Tlbs

open Programs

variable {σ Space Page Entry : Type}

/-- A machine with paging hardware. -/
structure Mmu (σ Space Page Entry : Type) where
  loaded : σ → Nat → Space
  /-- The space of the program that the processor runs. -/
  owned : σ → Nat → Option Space
  translate : σ → Space → Page → Option Entry
  /-- The processor is in user mode. -/
  running : σ → Nat → Prop
  invlpg : Nat → Page → σ → σ
  lcr3 : Nat → Space → σ → σ
  /-- The pages that user code has access to. -/
  guarded : Page → Prop
  /-- The first entry allows what the second one allows. -/
  grants : Entry → Entry → Prop
  grants_refl : ∀ w, grants w w
  grants_trans : ∀ w w' w'', grants w'' w' → grants w' w → grants w'' w
  translate_invlpg : ∀ c v s, translate (invlpg c v s) = translate s
  loaded_invlpg : ∀ c v s, loaded (invlpg c v s) = loaded s
  owned_invlpg : ∀ c v s, owned (invlpg c v s) = owned s
  running_invlpg : ∀ c v s, running (invlpg c v s) = running s
  translate_lcr3 : ∀ c a s, translate (lcr3 c a s) = translate s
  loaded_lcr3 : ∀ c a s, loaded (lcr3 c a s) = Function.update (loaded s) c a
  owned_lcr3 : ∀ c a s, owned (lcr3 c a s) = owned s
  running_lcr3 : ∀ c a s, running (lcr3 c a s) = running s

/-- A program of one processor, step by step. -/
inductive Code (σ Space Page α : Type) : Type 1 where
  | ret (a : α)
  | act {β : Type} (p : Prog σ β) (next : β → Code σ Space Page α)
  | invlpg (v : Page) (next : Code σ Space Page α)
  | lcr3 (a : Space) (next : Code σ Space Page α)

namespace Code

variable {α β : Type}

def bind : Code σ Space Page α → (α → Code σ Space Page β) → Code σ Space Page β
  | ret a, f => f a
  | act p next, f => act p (fun b => (next b).bind f)
  | invlpg v next, f => invlpg v (next.bind f)
  | lcr3 a next, f => lcr3 a (next.bind f)

instance : Monad (Code σ Space Page) where
  pure := ret
  bind := bind

/-- A program that nobody sees at work. -/
def lift (p : Prog σ α) : Code σ Space Page α := act p ret

def when (P : Prop) [Decidable P] (code : Code σ Space Page Unit) :
    Code σ Space Page Unit :=
  if P then code else ret ()

def forRange (i : Nat) : Nat → (Nat → Code σ Space Page Unit) →
    Code σ Space Page Unit
  | 0, _ => ret ()
  | n + 1, body => do
      body i
      forRange (i + 1) n body

/-- The program as a whole. -/
def collapse (M : Mmu σ Space Page Entry) (c : Nat) : Code σ Space Page α → Prog σ α
  | ret a => pure a
  | act p next => do
      let b ← p
      collapse M c (next b)
  | invlpg v next => do
      Prog.modify (M.invlpg c v)
      collapse M c next
  | lcr3 a next => do
      Prog.modify (M.lcr3 c a)
      collapse M c next

section Collapse

variable {M : Mmu σ Space Page Entry} {c : Nat}

theorem collapse_ret (a : α) :
    collapse M c (pure a : Code σ Space Page α) = pure a := rfl

theorem collapse_bind (code : Code σ Space Page α) (f : α → Code σ Space Page β) :
    collapse M c (code >>= f) = collapse M c code >>= fun a => collapse M c (f a) := by
  show collapse M c (code.bind f) = _
  induction code with
  | ret a => rfl
  | act p next ih =>
      show (p >>= fun b => collapse M c ((next b).bind f)) =
        p >>= (fun b => collapse M c (next b)) >>= _
      rw [Prog.bind_assoc]
      exact Prog.bind_congr ih
  | invlpg v next ih =>
      show (Prog.modify (M.invlpg c v) >>= fun _ => collapse M c (next.bind f)) =
        Prog.modify (M.invlpg c v) >>= (fun _ => collapse M c next) >>= _
      rw [ih, Prog.bind_assoc]
  | lcr3 a next ih =>
      show (Prog.modify (M.lcr3 c a) >>= fun _ => collapse M c (next.bind f)) =
        Prog.modify (M.lcr3 c a) >>= (fun _ => collapse M c next) >>= _
      rw [ih, Prog.bind_assoc]

theorem collapse_lift (p : Prog σ α) :
    collapse M c (lift p : Code σ Space Page α) = p := Prog.bind_pure p

theorem collapse_when {P : Prop} [Decidable P] (code : Code σ Space Page Unit) :
    collapse M c (when P code) = Prog.when P (collapse M c code) := by
  unfold when Prog.when
  split <;> rfl

theorem collapse_forRange (body : Nat → Code σ Space Page Unit) (i n : Nat) :
    collapse M c (forRange i n body) =
      Prog.forRange i n (fun j => collapse M c (body j)) := by
  induction n generalizing i with
  | zero => rfl
  | succ n ih =>
      unfold forRange Prog.forRange
      rw [collapse_bind]
      exact Prog.bind_congr (fun _ => ih (i + 1))

end Collapse

end Code

/-! ## Execution -/

/-- A machine and its caches. -/
structure State (σ Page Entry : Type) where
  machine : σ
  tlb : Nat → Set (Page × Entry)

section Execution

variable {α : Type} (M : Mmu σ Space Page Entry)

/-- Some processor reads an entry into its cache. -/
inductive Fill : State σ Page Entry → State σ Page Entry → Prop where
  | fill {s : State σ Page Entry} {w : Entry} (c : Nat) (v : Page) :
      M.translate s.machine (M.loaded s.machine c) v = some w →
      Fill s ⟨s.machine, Function.update s.tlb c (insert (v, w) (s.tlb c))⟩

/-- Processor `c` takes a step of its program, which is gone when it leaves
it. -/
inductive Exec (c : Nat) : Code σ Space Page α → State σ Page Entry →
    Option (Code σ Space Page α) → State σ Page Entry → Prop where
  | act {β : Type} {p : Prog σ β} {next : β → Code σ Space Page α}
      {s : State σ Page Entry} {b : β} {m : σ} :
      p.run s.machine = .ret b m → Exec c (.act p next) s (some (next b)) ⟨m, s.tlb⟩
  | exit {β : Type} {p : Prog σ β} {next : β → Code σ Space Page α}
      {s : State σ Page Entry} {m : σ} :
      p.run s.machine = .exit m → Exec c (.act p next) s none ⟨m, s.tlb⟩
  | invlpg {v : Page} {next : Code σ Space Page α} {s : State σ Page Entry} :
      Exec c (.invlpg v next) s (some next)
        ⟨M.invlpg c v s.machine,
          Function.update s.tlb c {q | q ∈ s.tlb c ∧ q.1 ≠ v}⟩
  | lcr3 {a : Space} {next : Code σ Space Page α} {s : State σ Page Entry} :
      Exec c (.lcr3 a next) s (some next)
        ⟨M.lcr3 c a s.machine, Function.update s.tlb c ∅⟩

end Execution

/-! ## Fresh caches -/

namespace Mmu

variable (M : Mmu σ Space Page Entry)

/-- Processor `c` has loaded the space of its program, and the tables still
allow what its cache allows. -/
structure Fresh (s : State σ Page Entry) (c : Nat) : Prop where
  owned : M.owned s.machine c = some (M.loaded s.machine c)
  cached : ∀ q, q ∈ s.tlb c → M.guarded q.1 →
    ∃ w, M.translate s.machine (M.loaded s.machine c) q.1 = some w ∧ M.grants w q.2

/-- The space that processor `c` has loaded still allows what it allowed. -/
structure Spares (m m' : σ) (c : Nat) : Prop where
  loaded : M.loaded m' c = M.loaded m c
  owned : M.owned m' c = M.owned m c
  translate : ∀ v w, M.guarded v → M.translate m (M.loaded m c) v = some w →
    ∃ w', M.translate m' (M.loaded m c) v = some w' ∧ M.grants w' w

/-- A step of processor `c` that spares the processors in user mode, and its own
cache if that is `own`. -/
structure Careful (c : Nat) (own : Prop) (m m' : σ) : Prop where
  others : ∀ c', c' ≠ c → M.running m' c' → M.running m c' ∧ M.Spares m m' c'
  mine : own → M.Spares m m' c

end Mmu

section Freshness

variable {M : Mmu σ Space Page Entry} {m m' m'' : σ} {s s' : State σ Page Entry}
  {c c' : Nat} {own : Prop}

theorem spares_of_eq (hl : M.loaded m' c = M.loaded m c)
    (ho : M.owned m' c = M.owned m c)
    (ht : ∀ v w, M.guarded v → M.translate m (M.loaded m c) v = some w →
      M.translate m' (M.loaded m c) v = some w) : M.Spares m m' c :=
  ⟨hl, ho, fun v w hv h => ⟨w, ht v w hv h, M.grants_refl w⟩⟩

theorem spares_refl (m : σ) (c : Nat) : M.Spares m m c :=
  spares_of_eq rfl rfl (fun _ _ _ h => h)

theorem careful_refl (c : Nat) (own : Prop) (m : σ) : M.Careful c own m m :=
  ⟨fun c' _ hr => ⟨hr, spares_refl m c'⟩, fun _ => spares_refl m c⟩

theorem spares_invlpg (c c' : Nat) (v : Page) (m : σ) :
    M.Spares m (M.invlpg c v m) c' :=
  spares_of_eq (congrFun (M.loaded_invlpg c v m) c')
    (congrFun (M.owned_invlpg c v m) c')
    (fun v' w _ h => by rwa [M.translate_invlpg])

theorem spares_lcr3 (a : Space) (m : σ) (hne : c' ≠ c) :
    M.Spares m (M.lcr3 c a m) c' :=
  spares_of_eq (by rw [M.loaded_lcr3, Function.update_of_ne hne])
    (congrFun (M.owned_lcr3 c a m) c') (fun v w _ h => by rwa [M.translate_lcr3])

theorem Mmu.Fresh.of_spares (h : M.Fresh s c) (hs : M.Spares s.machine m' c)
    {tlb : Nat → Set (Page × Entry)} (hsub : ∀ q, q ∈ tlb c → q ∈ s.tlb c) :
    M.Fresh ⟨m', tlb⟩ c := by
  refine ⟨?_, fun q hq hg => ?_⟩
  · rw [hs.owned, hs.loaded]
    exact h.owned
  · obtain ⟨w, hw, hgrants⟩ := h.cached q (hsub q hq) hg
    obtain ⟨w', hw', hgrants'⟩ := hs.translate q.1 w hg hw
    refine ⟨w', ?_, M.grants_trans q.2 w w' hgrants' hgrants⟩
    rw [hs.loaded]
    exact hw'

theorem Mmu.Fresh.fill (h : M.Fresh s c) (hf : Fill M s s') : M.Fresh s' c := by
  obtain ⟨c₁, v, hv⟩ := hf
  refine ⟨h.owned, fun q hq hg => ?_⟩
  by_cases hc : c = c₁
  · subst hc
    simp only [Function.update_self] at hq
    rcases hq with rfl | hq
    · exact ⟨_, hv, M.grants_refl _⟩
    · exact h.cached q hq hg
  · simp only [Function.update_of_ne hc] at hq
    exact h.cached q hq hg

end Freshness

/-! ## Programs that spare the caches -/

section Sparing

variable {α β : Type} (M : Mmu σ Space Page Entry) (c : Nat) (X : σ → Prop)

/-- The program spares the caches of the processors in user mode at every step,
returns only in states that satisfy `Q`, and leaves only in states that satisfy
`X` and with a fresh cache of its own.  `own` says that this cache is fresh, as
it may be after `lcr3`. -/
def Sparing (Q : Prop → α → σ → Prop) : Prop → Code σ Space Page α → σ → Prop
  | own, .ret a, m => Q own a m
  | own, .act p next, m =>
      wp p ⟨fun b m' => M.Careful c own m m' ∧ ¬ M.running m' c ∧
          Sparing Q own (next b) m',
        fun m' => M.Careful c own m m' ∧ own ∧ X m', fun _ => True⟩ m
  | own, .invlpg v next, m => Sparing Q own next (M.invlpg c v m)
  | _, .lcr3 a next, m => ∃ own, (own → M.owned m c = some a) ∧
      Sparing Q own next (M.lcr3 c a m)

variable {M c X}

theorem sparing_act {Q : Prop → α → σ → Prop} {own : Prop} {p : Prog σ β}
    {next : β → Code σ Space Page α} {m : σ} :
    Sparing M c X Q own (.act p next) m ↔
      wp p ⟨fun b m' => M.Careful c own m m' ∧ ¬ M.running m' c ∧
          Sparing M c X Q own (next b) m',
        fun m' => M.Careful c own m m' ∧ own ∧ X m', fun _ => True⟩ m := Iff.rfl

theorem Sparing.mono {Q Q' : Prop → α → σ → Prop} {own : Prop}
    {code : Code σ Space Page α} {m : σ} (h : Sparing M c X Q own code m)
    (hQ : ∀ own a m', Q own a m' → Q' own a m') : Sparing M c X Q' own code m := by
  induction code generalizing own m with
  | ret a => exact hQ _ _ _ h
  | act p next ih =>
      exact wp_mono h (fun b m' ⟨hc, hr, hs⟩ => ⟨hc, hr, ih b hs⟩) (fun _ hh => hh)
        (fun _ hh => hh)
  | invlpg v next ih => exact ih h
  | lcr3 a next ih =>
      obtain ⟨own', ho, h⟩ := h
      exact ⟨own', ho, ih h⟩

/-- Sequencing. -/
theorem sparing_bind {Q : Prop → β → σ → Prop} {own : Prop}
    {code : Code σ Space Page α} {f : α → Code σ Space Page β} {m : σ} :
    Sparing M c X Q own (code >>= f) m ↔
      Sparing M c X (fun own' a m' => Sparing M c X Q own' (f a) m') own code m := by
  show Sparing M c X Q own (code.bind f) m ↔ _
  induction code generalizing own m with
  | ret a => exact Iff.rfl
  | act p next ih =>
      constructor
      · exact fun h => wp_mono h (fun b m' ⟨hc, hr, hs⟩ => ⟨hc, hr, (ih b).mp hs⟩)
          (fun _ hh => hh) (fun _ hh => hh)
      · exact fun h => wp_mono h (fun b m' ⟨hc, hr, hs⟩ => ⟨hc, hr, (ih b).mpr hs⟩)
          (fun _ hh => hh) (fun _ hh => hh)
  | invlpg v next ih => exact ih
  | lcr3 a next ih => exact exists_congr (fun _ => and_congr_right (fun _ => ih))

/-- A step that returns or stops, and what follows it. -/
theorem sparing_step {Q : Prop → β → σ → Prop} {own : Prop} {p : Prog σ α}
    {f : α → Code σ Space Page β} {m : σ}
    (h : wp p (Partial (fun a m' => M.Careful c own m m' ∧ ¬ M.running m' c ∧
      Sparing M c X Q own (f a) m') (fun _ => False)) m) :
    Sparing M c X Q own (.lift p >>= f) m :=
  wp_mono h (fun _ _ hh => hh) (fun _ => False.elim) (fun _ _ => trivial)

/-- A step of which the result is known. -/
theorem sparing_ret {Q : Prop → β → σ → Prop} {own : Prop} {p : Prog σ α} {a : α}
    {f : α → Code σ Space Page β} {m m' : σ} (hrun : p.run m = .ret a m')
    (hcare : M.Careful c own m m') (hstop : ¬ M.running m' c)
    (h : Sparing M c X Q own (f a) m') : Sparing M c X Q own (.lift p >>= f) m :=
  sparing_step (wp_of_ret hrun ⟨hcare, hstop, h⟩)

theorem sparing_when {Q : Prop → Unit → σ → Prop} {own P : Prop} [Decidable P]
    {code : Code σ Space Page Unit} {m : σ} (hpos : P → Sparing M c X Q own code m)
    (hneg : ¬ P → Q own () m) : Sparing M c X Q own (.when P code) m := by
  unfold Code.when
  split
  · exact hpos ‹P›
  · exact hneg ‹¬ P›

/-- A loop, with an invariant indexed by its counter. -/
theorem sparing_forRange {own : Prop} {body : Nat → Code σ Space Page Unit}
    (I : Nat → σ → Prop) (i n : Nat) {m : σ}
    (hbody : ∀ j m, i ≤ j → j < i + n → I j m →
      Sparing M c X (fun own' _ m' => own' = own ∧ I (j + 1) m') own (body j) m)
    (hI : I i m) :
    Sparing M c X (fun own' _ m' => own' = own ∧ I (i + n) m') own
      (.forRange i n body) m := by
  induction n generalizing i m with
  | zero => exact ⟨rfl, hI⟩
  | succ n ih =>
      refine sparing_bind.mpr ((hbody i m (Nat.le_refl i) (by omega) hI).mono ?_)
      rintro own' _ m' ⟨rfl, hm'⟩
      refine (ih (i + 1) (fun j m₁ hj hlt => hbody j m₁ (by omega) (by omega))
        hm').mono ?_
      rintro own'' _ m'' ⟨hown, hm''⟩
      exact ⟨hown, by rwa [show i + 1 + n = i + (n + 1) by omega] at hm''⟩

theorem Sparing.mono_exit {X' : σ → Prop} {Q : Prop → α → σ → Prop} {own : Prop}
    {code : Code σ Space Page α} {m : σ} (h : Sparing M c X Q own code m)
    (hX : ∀ m', X m' → X' m') : Sparing M c X' Q own code m := by
  induction code generalizing own m with
  | ret a => exact h
  | act p next ih =>
      exact wp_mono h (fun b m' ⟨hc, hr, hs⟩ => ⟨hc, hr, ih b hs⟩)
        (fun m' ⟨hc, ho, hx⟩ => ⟨hc, ho, hX m' hx⟩) (fun _ hh => hh)
  | invlpg v next ih => exact ih h
  | lcr3 a next ih =>
      obtain ⟨own', ho, h⟩ := h
      exact ⟨own', ho, ih h⟩

/-- What is known of the program as a whole holds when it returns or leaves. -/
theorem Sparing.and_wp {Q : Prop → α → σ → Prop} {R : α → σ → Prop}
    {E : σ → Prop} {own : Prop} {code : Code σ Space Page α} {m : σ}
    (h : Sparing M c X Q own code m)
    (hw : wp (code.collapse M c) ⟨R, E, fun _ => True⟩ m) :
    Sparing M c (fun m' => X m' ∧ E m') (fun own' a m' => Q own' a m' ∧ R a m') own
      code m := by
  induction code generalizing own m with
  | ret a => exact ⟨h, hw⟩
  | act p next ih =>
      have h := sparing_act.mp h
      have hw := (wp_bind _ _ _).mp hw
      refine sparing_act.mpr ?_
      unfold wp at h hw ⊢
      cases hrun : p.run m with
      | ret b m' =>
          rw [hrun] at h hw
          exact ⟨h.1, h.2.1, ih b h.2.2 hw⟩
      | exit m' =>
          rw [hrun] at h hw
          exact ⟨h.1, h.2.1, h.2.2, hw⟩
      | stop m' => trivial
  | invlpg v next ih => exact ih h hw
  | lcr3 a next ih =>
      obtain ⟨own', ho, h⟩ := h
      exact ⟨own', ho, ih h hw⟩

theorem Sparing.and_collapse {Q : Prop → α → σ → Prop} {R : α → σ → Prop}
    {own : Prop} {code : Code σ Space Page α} {m : σ}
    (h : Sparing M c X Q own code m) (hw : Returns (code.collapse M c) R m) :
    Sparing M c X (fun own' a m' => Q own' a m' ∧ R a m') own code m :=
  (h.and_wp (wp_of_returns hw (fun _ _ hh => hh) :
    wp _ ⟨R, fun _ => False, fun _ => True⟩ m)).mono_exit (fun _ hh => hh.1)

end Sparing

/-! ## Soundness -/

section Soundness

variable {α : Type} {M : Mmu σ Space Page Entry} {c : Nat} {X : σ → Prop}
  {s s' : State σ Page Entry}

/-- While processor `c` is at work, the others have fresh caches if they are in
user mode, and it has one if that is `own`. -/
structure AtWork (M : Mmu σ Space Page Entry) (c : Nat) (own : Prop)
    (s : State σ Page Entry) : Prop where
  others : ∀ c', c' ≠ c → M.running s.machine c' → M.Fresh s c'
  mine : own → M.Fresh s c
  stopped : ¬ M.running s.machine c

theorem AtWork.fill {own : Prop} (h : AtWork M c own s) (hf : Fill M s s') :
    AtWork M c own s' := by
  have hm : s'.machine = s.machine := by
    cases hf
    rfl
  refine ⟨fun c' hc hr => ?_, fun ho => (h.mine ho).fill hf, ?_⟩
  · rw [hm] at hr
    exact (h.others c' hc hr).fill hf
  · rw [hm]
    exact h.stopped

theorem AtWork.careful {own : Prop} {m' : σ} (h : AtWork M c own s)
    (hc : M.Careful c own s.machine m') :
    (∀ c', c' ≠ c → M.running m' c' → M.Fresh ⟨m', s.tlb⟩ c') ∧
      (own → M.Fresh ⟨m', s.tlb⟩ c) := by
  refine ⟨fun c' hne hr => ?_,
    fun ho => (h.mine ho).of_spares (hc.mine ho) (fun _ hq => hq)⟩
  obtain ⟨hr', hs⟩ := hc.others c' hne hr
  exact (h.others c' hne hr').of_spares hs (fun _ hq => hq)

/-- One step of a sparing program. -/
theorem Exec.fresh {Q : Prop → α → σ → Prop} {own : Prop}
    {code : Code σ Space Page α} {code' : Option (Code σ Space Page α)}
    (he : Exec M c code s code' s') (hs : Sparing M c X Q own code s.machine)
    (h : AtWork M c own s) :
    (∀ code₁, code' = some code₁ →
      ∃ own', Sparing M c X Q own' code₁ s'.machine ∧ AtWork M c own' s') ∧
      (code' = none → X s'.machine ∧
        ∀ c', M.running s'.machine c' → M.Fresh s' c') := by
  cases he with
  | act hrun =>
      obtain ⟨hc, hr, hs⟩ := wp_ret hs hrun
      obtain ⟨hothers, hmine⟩ := h.careful hc
      refine ⟨?_, fun hh => absurd hh (by simp)⟩
      rintro code₁ ⟨⟩
      exact ⟨own, hs, hothers, hmine, hr⟩
  | exit hrun =>
      obtain ⟨hc, ho, hX⟩ := wp_exited hs hrun
      obtain ⟨hothers, hmine⟩ := h.careful hc
      refine ⟨fun _ hh => absurd hh (by simp), fun _ => ⟨hX, fun c' hr => ?_⟩⟩
      by_cases hne : c' = c
      · rw [hne]
        exact hmine ho
      · exact hothers c' hne hr
  | @invlpg v next =>
      refine ⟨?_, fun hh => absurd hh (by simp)⟩
      rintro code₁ ⟨⟩
      have hrun := M.running_invlpg c v s.machine
      refine ⟨own, hs, fun c' hne hr => ?_, fun ho => ?_, ?_⟩
      · refine (h.others c' hne ?_).of_spares (spares_invlpg c c' v _) (fun q hq => ?_)
        · rw [hrun] at hr
          exact hr
        · simpa only [Function.update_of_ne hne] using hq
      · refine (h.mine ho).of_spares (spares_invlpg c c v _) (fun q hq => ?_)
        simp only [Function.update_self] at hq
        exact hq.1
      · show ¬ M.running (M.invlpg c v s.machine) c
        rw [hrun]
        exact h.stopped
  | @lcr3 a next =>
      refine ⟨?_, fun hh => absurd hh (by simp)⟩
      rintro code₁ ⟨⟩
      obtain ⟨own', ho, hs⟩ := hs
      have hrun := M.running_lcr3 c a s.machine
      refine ⟨own', hs, fun c' hne hr => ?_, fun hown => ⟨?_, fun q hq => ?_⟩, ?_⟩
      · refine (h.others c' hne ?_).of_spares (spares_lcr3 a _ hne) (fun q hq => ?_)
        · rw [hrun] at hr
          exact hr
        · simpa only [Function.update_of_ne hne] using hq
      · show M.owned (M.lcr3 c a s.machine) c = _
        rw [M.owned_lcr3, M.loaded_lcr3, Function.update_self]
        exact ho hown
      · simp only [Function.update_self] at hq
        exact absurd hq (Set.notMem_empty q)
      · show ¬ M.running (M.lcr3 c a s.machine) c
        rw [hrun]
        exact h.stopped

end Soundness

end Tlbs

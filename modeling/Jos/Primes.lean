import Jos.Lib.Sieve
import Mathlib.Logic.Relation

/-!
# `primes`: the chain of processes

`primeproc` takes a prime from its left neighbour, prints it, forks a right neighbour and
sends on what the prime does not divide.  `umain` sends every number to the first process.
A process is named here by the order in which it was forked, and `ipc_send` and `ipc_recv`
meet: `ipc_send` tries until the other process waits in `sys_ipc_recv`.  The processes take
their steps in any order, and a `fork` can fail.

* `primes_in_order`: what was printed is the list of the first primes.
* `primes_settle`: the processes come to rest between two numbers, and have then printed
  every prime below the next number.
-/

namespace Jos.Primes

open Sieve

/-- Where a process is in `primeproc`, with its prime, its right neighbour and the number
that it has received. -/
inductive Proc where
  | top
  | fetching
  | fetched (p : Nat)
  | printed (p : Nat)
  | looping (p id : Nat)
  | receiving (p id : Nat)
  | testing (p id i : Nat)
  | sending (p id i : Nat)
  | failed (p : Nat)
deriving DecidableEq

/-- Where the first process is in `umain`. -/
inductive Gen where
  | starting
  | sending (id i : Nat)
  | sent (id i : Nat)
  | failed
deriving DecidableEq

structure Chain where
  gen : Gen
  procs : List Proc
  out : List Nat
deriving DecidableEq

/-- A message arrives, if the process waits for one. -/
def Proc.accept (i : Nat) : Proc → Option Proc
  | .fetching => some (.fetched i)
  | .receiving p id => some (.testing p id i)
  | _ => none

/-- The steps of a process that concern nobody else. -/
def Proc.own : Proc → Option Proc
  | .top => some .fetching
  | .looping p id => some (.receiving p id)
  | .testing p id i => some (if i % p ≠ 0 then .sending p id i else .looping p id)
  | _ => none

/-- A step of one of the processes that run `primeproc`. -/
inductive Work : Chain → Chain → Prop where
  | own {s k r r'} : s.procs[k]? = some r → r.own = some r' →
      Work s { s with procs := s.procs.set k r' }
  | print {s k p} : s.procs[k]? = some (.fetched p) →
      Work s { s with procs := s.procs.set k (.printed p), out := s.out ++ [p] }
  | fork {s k p} : s.procs[k]? = some (.printed p) →
      Work s { s with procs := s.procs.set k (.looping p s.procs.length) ++ [.top] }
  | forkFails {s k p} : s.procs[k]? = some (.printed p) →
      Work s { s with procs := s.procs.set k (.failed p) }
  | send {s k p id i r r'} : s.procs[k]? = some (.sending p id i) → s.procs[id]? = some r →
      r.accept i = some r' →
      Work s { s with procs := (s.procs.set k (.looping p id)).set id r' }
  | sendFails {s k p id i q} : s.procs[k]? = some (.sending p id i) →
      s.procs[id]? = some (.failed q) →
      Work s { s with procs := s.procs.set k (.failed p) }

/-- A step of any process.  `i++` is an `int` and has to fit. -/
inductive Step : Chain → Chain → Prop where
  | work {s s'} : Work s s' → Step s s'
  | start {s} : s.gen = .starting →
      Step s { s with gen := .sending s.procs.length 2, procs := s.procs ++ [.top] }
  | startFails {s} : s.gen = .starting → Step s { s with gen := .failed }
  | send {s id i r r'} : s.gen = .sending id i → s.procs[id]? = some r →
      r.accept i = some r' →
      Step s { s with gen := .sent id i, procs := s.procs.set id r' }
  | sendFails {s id i q} : s.gen = .sending id i → s.procs[id]? = some (.failed q) →
      Step s { s with gen := .failed }
  | next {s id i} : s.gen = .sent id i → i + 1 < 2 ^ 31 →
      Step s { s with gen := .sending id (i + 1) }

def init : Chain where
  gen := .starting
  procs := []
  out := []

abbrev Reachable : Chain → Prop := Relation.ReflTransGen Step init

/-- What a process has printed. -/
def Proc.shown : Proc → List Nat
  | .printed p | .looping p _ | .receiving p _ | .testing p _ _ | .sending p _ _ | .failed p => [p]
  | _ => []

/-- The process is blocked until a message arrives. -/
def Proc.Waits (r : Proc) : Prop := ∀ i, (r.accept i).isSome

/-- Of the numbers below `a`, those that the divisors leave have come to the first of the
processes, and each process has handed on what its prime leaves. -/
inductive Flow : List Nat → Nat → List Proc → Prop where
  | nil {ps a} : Flow ps a []
  | top {ps a} : Clear ps 0 a → Flow ps a [.top]
  | fetching {ps a} : Clear ps 0 a → Flow ps a [.fetching]
  | fetched {ps a p} : First ps p → p < a → Clear ps (p + 1) a → Flow ps a [.fetched p]
  | printed {ps a p} : First ps p → p < a → Clear ps (p + 1) a → Flow ps a [.printed p]
  | looping {ps a p l} : First ps p → p < a → l ≠ [] → Flow (ps ++ [p]) a l →
      Flow ps a (.looping p (ps.length + 1) :: l)
  | receiving {ps a p l} : First ps p → p < a → l ≠ [] → Flow (ps ++ [p]) a l →
      Flow ps a (.receiving p (ps.length + 1) :: l)
  | testing {ps a p i l} : First ps p → p < i → Sifted ps i → i < a → Clear ps (i + 1) a →
      l ≠ [] → Flow (ps ++ [p]) i l → Flow ps a (.testing p (ps.length + 1) i :: l)
  | sending {ps a p i l} : First ps p → p < i → Sifted (ps ++ [p]) i → i < a →
      Clear ps (i + 1) a → l ≠ [] → Flow (ps ++ [p]) i l →
      Flow ps a (.sending p (ps.length + 1) i :: l)
  | failed {ps a b p l} : First ps p → p < a → b ≤ a → Flow (ps ++ [p]) b l →
      Flow ps a (.failed p :: l)

section Flows

variable {ps qs : List Nat} {a b i p id : Nat} {r r' : Proc} {l t t' : List Proc}

/-- Numbers that nobody leaves come to no process. -/
theorem Flow.widen (h : Flow ps a l) (hle : a ≤ b) (hclear : Clear ps a b) : Flow ps b l := by
  induction h generalizing b with
  | nil => exact .nil
  | top h => exact .top (h.trans hclear)
  | fetching h => exact .fetching (h.trans hclear)
  | fetched hp hlt h => exact .fetched hp (by omega) (h.trans hclear)
  | printed hp hlt h => exact .printed hp (by omega) (h.trans hclear)
  | looping hp hlt hne _ ih => exact .looping hp (by omega) hne (ih hle hclear.append)
  | receiving hp hlt hne _ ih => exact .receiving hp (by omega) hne (ih hle hclear.append)
  | testing hp hlt hi hlt' h hne hrest _ =>
      exact .testing hp hlt hi (by omega) (h.trans hclear) hne hrest
  | sending hp hlt hi hlt' h hne hrest _ =>
      exact .sending hp hlt hi (by omega) (h.trans hclear) hne hrest
  | failed hp hlt hb hrest _ => exact .failed hp (by omega) (by omega) hrest

/-- What the last processes do on their own does not concern those before them. -/
theorem Flow.replace (h : Flow ps a (l ++ t)) (ht : t ≠ []) (ht' : t' ≠ [])
    (hstep : ∀ qs b, qs.length = ps.length + l.length → Flow qs b t → Flow qs b t') :
    Flow ps a (l ++ t') := by
  induction l generalizing ps a with
  | nil => exact hstep ps a rfl h
  | cons q l ih =>
      have hrest : ∀ p b, Flow (ps ++ [p]) b (l ++ t) → Flow (ps ++ [p]) b (l ++ t') :=
        fun p b h' => ih h' (fun qs c hqs => hstep qs c (by simp at hqs ⊢; omega))
      have hne : l ++ t' ≠ [] := by simp [ht']
      have hne' : l ++ t ≠ [] := by simp [ht]
      rw [List.cons_append] at h ⊢
      generalize l ++ t = m at h hrest hne'
      cases h with
      | top | fetching | fetched | printed => exact absurd rfl hne'
      | looping hp hlt _ h => exact .looping hp hlt hne (hrest _ _ h)
      | receiving hp hlt _ h => exact .receiving hp hlt hne (hrest _ _ h)
      | testing hp hlt hi hlt' hc _ h => exact .testing hp hlt hi hlt' hc hne (hrest _ _ h)
      | sending hp hlt hi hlt' hc _ h => exact .sending hp hlt hi hlt' hc hne (hrest _ _ h)
      | failed hp hlt hb h => exact .failed hp hlt hb (hrest _ _ h)

/-- The last processes, seen from the others. -/
theorem Flow.suffix (h : Flow ps a (l ++ t)) (ht : t ≠ []) :
    ∃ qs b, qs.length = ps.length + l.length ∧ Flow qs b t := by
  induction l generalizing ps a with
  | nil => exact ⟨ps, a, rfl, h⟩
  | cons q l ih =>
      have hrest : ∀ p b, Flow (ps ++ [p]) b (l ++ t) →
          ∃ qs b, qs.length = ps.length + (q :: l).length ∧ Flow qs b t := by
        intro p b h'
        obtain ⟨qs, c, hqs, hflow⟩ := ih h'
        exact ⟨qs, c, by simp at hqs ⊢; omega, hflow⟩
      have hne : l ++ t ≠ [] := by simp [ht]
      rw [List.cons_append] at h
      generalize l ++ t = m at h hrest hne
      cases h with
      | top | fetching | fetched | printed => exact absurd rfl hne
      | looping _ _ _ h | receiving _ _ _ h => exact hrest _ _ h
      | testing _ _ _ _ _ _ h | sending _ _ _ _ _ _ h => exact hrest _ _ h
      | failed _ _ _ h => exact hrest _ _ h

theorem Flow.own (h : Flow ps a (r :: l)) (hown : r.own = some r') : Flow ps a (r' :: l) := by
  cases h with
  | top h => cases hown; exact .fetching h
  | looping hp hlt hne h => cases hown; exact .receiving hp hlt hne h
  | @testing _ _ p i _ hp hlt hi hlt' hc hne h =>
      cases hown
      by_cases hdvd : p ∣ i
      · -- the number goes no further
        rw [if_neg (by simpa using Nat.mod_eq_zero_of_dvd hdvd)]
        exact .looping hp (by omega) hne
          (h.widen (by omega) ((clear_dvd hdvd).trans hc.append))
      · rw [if_pos (mt Nat.dvd_of_mod_eq_zero hdvd)]
        exact .sending hp hlt (sifted_append.mpr ⟨hi, hdvd⟩) hlt' hc hne h
  | fetching | fetched | printed | receiving | sending | failed => cases hown

theorem Flow.print (h : Flow ps a (.fetched p :: l)) : l = [] ∧ Flow ps a [.printed p] := by
  cases h with
  | fetched hp hlt hc => exact ⟨rfl, .printed hp hlt hc⟩

/-- The new process has everything before it that the prime leaves. -/
theorem Flow.fork (h : Flow ps a (.printed p :: l)) :
    l = [] ∧ Flow ps a [.looping p (ps.length + 1), .top] := by
  cases h with
  | printed hp hlt hc =>
      have hclear : Clear (ps ++ [p]) 0 a :=
        hp.2.append.trans ((clear_dvd (Nat.dvd_refl p)).trans hc.append)
      exact ⟨rfl, .looping hp hlt (by simp) (.top hclear)⟩

theorem Flow.forkFails (h : Flow ps a (.printed p :: l)) : Flow ps a (.failed p :: l) := by
  cases h with
  | printed hp hlt hc => exact .failed hp hlt (Nat.le_refl a) .nil

theorem Flow.sendFails (h : Flow ps a (.sending p id i :: l)) : Flow ps a (.failed p :: l) := by
  cases h with
  | sending hp hlt _ hlt' _ _ h => exact .failed hp (by omega) (by omega) h

/-- The next number comes to the first process. -/
theorem Flow.accept (h : Flow ps i (r :: l)) (hi : Sifted ps i) (hr : r.accept i = some r') :
    Flow ps (i + 1) (r' :: l) := by
  have hnone : Clear ps (i + 1) (i + 1) := fun n hlo hhi => by omega
  cases h with
  | fetching h => cases hr; exact .fetched ⟨hi, h⟩ (Nat.lt_succ_self i) hnone
  | receiving hp hlt hne h =>
      cases hr
      exact .testing hp hlt hi (Nat.lt_succ_self i) hnone hne h
  | top | fetched | printed | looping | testing | sending | failed => cases hr

theorem Flow.send (h : Flow ps a (.sending p id i :: r :: l)) (hr : r.accept i = some r') :
    Flow ps a (.looping p id :: r' :: l) := by
  cases h with
  | sending hp hlt hi hlt' hc _ h =>
      exact .looping hp (by omega) (by simp) ((h.accept hi hr).widen (by omega) hc.append)

theorem Flow.neighbour (h : Flow ps a (.sending p id i :: l)) : id = ps.length + 1 := by
  cases h with
  | sending => rfl

/-- What the processes have printed was made by sifting. -/
theorem Flow.siftedFrom (h : Flow ps a l) : SiftedFrom ps (l.flatMap Proc.shown) := by
  induction h with
  | nil | top | fetching | fetched => exact trivial
  | printed hp => exact ⟨hp, trivial⟩
  | looping hp _ _ _ ih | receiving hp _ _ _ ih => exact ⟨hp, ih⟩
  | testing hp _ _ _ _ _ _ ih | sending hp _ _ _ _ _ _ ih => exact ⟨hp, ih⟩
  | failed hp _ _ _ ih => exact ⟨hp, ih⟩

/-- Nothing was printed that has not come to the first process. -/
theorem Flow.shown_lt (h : Flow ps a l) : ∀ p ∈ l.flatMap Proc.shown, p < a := by
  induction h with
  | nil | top | fetching | fetched => simp [Proc.shown]
  | printed _ hlt => simpa [Proc.shown] using hlt
  | looping _ hlt _ _ ih | receiving _ hlt _ _ ih =>
      rintro q hq
      rcases List.mem_cons.mp hq with rfl | hq
      · exact hlt
      · exact ih q hq
  | testing _ hlt _ hlt' _ _ _ ih | sending _ hlt _ hlt' _ _ _ ih =>
      rintro q hq
      rcases List.mem_cons.mp hq with rfl | hq
      · omega
      · have := ih q hq
        omega
  | failed _ hlt hb _ ih =>
      rintro q hq
      rcases List.mem_cons.mp hq with rfl | hq
      · exact hlt
      · have := ih q hq
        omega

/-- Processes that all wait have sifted every number that came to the first. -/
theorem Flow.clear (h : Flow ps a l) (hne : l ≠ []) (hwait : ∀ r ∈ l, r.Waits) :
    Clear (ps ++ l.flatMap Proc.shown) 0 a := by
  induction h with
  | nil => exact absurd rfl hne
  | fetching h => simpa [Proc.shown] using h
  | receiving _ _ hrest _ ih =>
      have hclear := ih hrest (fun r hr => hwait r (by simp [hr]))
      simpa [Proc.shown] using hclear
  | top | fetched | printed | looping | testing | sending | failed =>
      have hfalse := hwait _ (List.mem_cons_self ..) 0
      simp [Proc.accept] at hfalse

end Flows

/-- How far the numbers have come that `umain` sends. -/
inductive Front : Gen → Nat → List Proc → Prop where
  | starting {a} : Front .starting a []
  | sending {i l} : 2 ≤ i → l ≠ [] → Front (.sending 0 i) i l
  | sent {i l} : 2 ≤ i → l ≠ [] → Front (.sent 0 i) (i + 1) l
  | failed {a l} : Front .failed a l

structure Inv (s : Chain) : Prop where
  flow : ∃ a, Front s.gen a s.procs ∧ Flow [] a s.procs
  out : s.out = s.procs.flatMap Proc.shown

section Steps

variable {s s' : Chain} {k i : Nat} {p id : Nat} {r r' : Proc} {procs l t t' : List Proc}

theorem split_at (h : procs[k]? = some r) : ∃ l t, procs = l ++ r :: t ∧ l.length = k := by
  obtain ⟨hk, rfl⟩ := List.getElem?_eq_some_iff.mp h
  exact ⟨procs.take k, procs.drop (k + 1), by simp, by simp; omega⟩

theorem get_split (h : procs = l ++ r :: t) : procs[l.length]? = some r := by
  simp [h]

theorem Front.replace {g : Gen} {a : Nat} (h : Front g a (l ++ t)) (ht : t ≠ []) (ht' : t' ≠ []) :
    Front g a (l ++ t') := by
  cases h' : g with
  | starting =>
      subst h'
      generalize hm : l ++ t = m at h
      cases h
      simp [ht] at hm
  | sending id j => subst h'; cases h with | sending h _ => exact .sending h (by simp [ht'])
  | sent id j => subst h'; cases h with | sent h _ => exact .sent h (by simp [ht'])
  | failed => exact .failed

theorem Proc.own_shown (h : r.own = some r') : r'.shown = r.shown := by
  cases r with
  | top | looping => cases h; rfl
  | testing p id i =>
      cases h
      split <;> rfl
  | fetching | fetched | printed | receiving | sending | failed => cases h

theorem Proc.accept_shown (h : r.accept i = some r') : r'.shown = r.shown := by
  cases r with
  | fetching | receiving => cases h; rfl
  | top | fetched | printed | looping | testing | sending | failed => cases h

theorem Inv.suffix (h : Inv s) (hs : s.procs = l ++ t) (ht : t ≠ []) :
    ∃ qs b, qs.length = l.length ∧ Flow qs b t := by
  obtain ⟨⟨a, -, hflow⟩, -⟩ := h
  rw [hs] at hflow
  simpa using hflow.suffix ht

/-- What a step does to the last processes, the first of which is process `n`, and what is
printed. -/
inductive Local (n : Nat) : List Proc → List Proc → List Nat → Prop where
  | own {r r' : Proc} {t : List Proc} : r.own = some r' → Local n (r :: t) (r' :: t) []
  | print {p : Nat} : Local n [.fetched p] [.printed p] [p]
  | fork {p : Nat} : Local n [.printed p] [.looping p (n + 1), .top] []
  | forkFails {p : Nat} {t : List Proc} : Local n (.printed p :: t) (.failed p :: t) []
  | send {p i : Nat} {r r' : Proc} {t : List Proc} : r.accept i = some r' →
      Local n (.sending p (n + 1) i :: r :: t) (.looping p (n + 1) :: r' :: t) []
  | sendFails {p id i : Nat} {t : List Proc} : Local n (.sending p id i :: t) (.failed p :: t) []

theorem Local.ne_nil {out : List Nat} (h : Local k t t' out) : t ≠ [] ∧ t' ≠ [] := by
  cases h <;> simp

theorem Local.flow {out : List Nat} {ps : List Nat} {a : Nat} (h : Local ps.length t t' out)
    (hflow : Flow ps a t) : Flow ps a t' := by
  cases h with
  | own hown => exact hflow.own hown
  | print => exact hflow.print.2
  | fork => exact hflow.fork.2
  | forkFails => exact hflow.forkFails
  | send hr => exact hflow.send hr
  | sendFails => exact hflow.sendFails

theorem Local.shown {out : List Nat} (h : Local k t t' out) :
    t'.flatMap Proc.shown = t.flatMap Proc.shown ++ out := by
  cases h with
  | own hown => simp only [List.flatMap_cons, Proc.own_shown hown, List.append_nil]
  | print | fork => rfl
  | forkFails | sendFails => simp [Proc.shown]
  | send hr =>
      simp only [List.flatMap_cons, Proc.accept_shown hr, List.append_nil]
      rfl

/-- A step concerns the last processes only. -/
theorem Work.local (h : Work s s') (hs : Inv s) : ∃ l t t' out, s.procs = l ++ t ∧
    s' = { s with procs := l ++ t', out := s.out ++ out } ∧ Local l.length t t' out := by
  cases h with
  | own hk hown =>
      obtain ⟨l, t, hprocs, rfl⟩ := split_at hk
      exact ⟨l, _, _, [], hprocs, by simp [hprocs], .own hown⟩
  | @print k p hk =>
      obtain ⟨l, t, hprocs, rfl⟩ := split_at hk
      obtain ⟨qs, b, hqs, hflow⟩ := hs.suffix hprocs (by simp)
      obtain ⟨rfl, -⟩ := hflow.print
      exact ⟨l, _, _, [p], hprocs, by simp [hprocs], .print⟩
  | fork hk =>
      obtain ⟨l, t, hprocs, rfl⟩ := split_at hk
      obtain ⟨qs, b, hqs, hflow⟩ := hs.suffix hprocs (by simp)
      obtain ⟨rfl, -⟩ := hflow.fork
      exact ⟨l, _, _, [], hprocs, by simp [hprocs], .fork⟩
  | forkFails hk =>
      obtain ⟨l, t, hprocs, rfl⟩ := split_at hk
      exact ⟨l, _, _, [], hprocs, by simp [hprocs], .forkFails⟩
  | @send k p id i r r' hk hid hr =>
      obtain ⟨l, t, hprocs, rfl⟩ := split_at hk
      obtain ⟨qs, b, hqs, hflow⟩ := hs.suffix hprocs (by simp)
      obtain rfl : id = l.length + 1 := hqs ▸ hflow.neighbour
      obtain ⟨r₁, m, rfl⟩ : ∃ r₁ m, t = r₁ :: m := by
        cases t with
        | nil => simp [hprocs] at hid
        | cons r₁ m => exact ⟨r₁, m, rfl⟩
      obtain rfl : r₁ = r := by simpa [hprocs] using hid
      exact ⟨l, _, _, [], hprocs, by simp [hprocs], .send hr⟩
  | sendFails hk hid =>
      obtain ⟨l, t, hprocs, rfl⟩ := split_at hk
      exact ⟨l, _, _, [], hprocs, by simp [hprocs], .sendFails⟩

theorem Work.inv (h : Work s s') (hs : Inv s) : Inv s' := by
  obtain ⟨l, t, t', out, hprocs, rfl, hlocal⟩ := h.local hs
  obtain ⟨⟨a, hfront, hflow⟩, hshown⟩ := hs
  obtain ⟨hne, hne'⟩ := hlocal.ne_nil
  rw [hprocs] at hfront hflow hshown
  refine ⟨⟨a, hfront.replace hne hne', hflow.replace hne hne' (fun qs b hqs h => ?_)⟩, ?_⟩
  · have hqs' : qs.length = l.length := by simpa using hqs
    exact (hqs' ▸ hlocal).flow h
  · simp only [hshown, List.flatMap_append, hlocal.shown, List.append_assoc]

theorem Step.inv (h : Step s s') (hs : Inv s) : Inv s' := by
  cases h with
  | work h => exact h.inv hs
  | start hgen =>
      obtain ⟨⟨a, hfront, hflow⟩, hout⟩ := hs
      rw [hgen] at hfront
      generalize s.procs = l at hfront hout
      cases hfront with
      | starting =>
          have hclear : Clear [] 0 2 := fun n _ hn h => by
            have := h.1
            omega
          refine ⟨⟨2, .sending (Nat.le_refl 2) (by simp), .top hclear⟩, ?_⟩
          rw [hout]
          rfl
  | startFails | sendFails =>
      obtain ⟨⟨a, -, hflow⟩, hout⟩ := hs
      exact ⟨⟨a, .failed, hflow⟩, hout⟩
  | @send id i r r' hgen hid hr =>
      obtain ⟨⟨a, hfront, hflow⟩, hout⟩ := hs
      rw [hgen] at hfront
      generalize s.procs = l at hfront hflow hout hid
      cases hfront with
      | sending htwo hne =>
          cases hflow' : l with
          | nil => exact absurd hflow' hne
          | cons r₁ l =>
              subst hflow'
              obtain rfl : r₁ = r := by simpa using hid
              have hsifted : Sifted [] i := ⟨htwo, by simp⟩
              refine ⟨⟨i + 1, .sent htwo (by simp), ?_⟩, ?_⟩
              · exact hflow.accept hsifted hr
              · simpa [Proc.accept_shown hr] using hout
  | next hgen hi =>
      obtain ⟨⟨a, hfront, hflow⟩, hout⟩ := hs
      rw [hgen] at hfront
      generalize s.procs = l at hfront hflow hout
      cases hfront with
      | sent htwo hne => exact ⟨⟨_, .sending (by omega) hne, hflow⟩, hout⟩

theorem Reachable.inv (h : Reachable s) : Inv s := by
  induction h with
  | refl => exact ⟨⟨0, .starting, .nil⟩, rfl⟩
  | tail _ hstep ih => exact hstep.inv ih

theorem Inv.sifted (hs : Inv s) : s.out = firstPrimes s.out.length := by
  obtain ⟨⟨a, -, hflow⟩, hout⟩ := hs
  have hsifted := hflow.siftedFrom
  rw [← hout] at hsifted
  have hprimes : firstPrimes 0 ++ s.out = firstPrimes (0 + s.out.length) :=
    siftedFrom_primes hsifted
  simpa [firstPrimes] using hprimes

/-- Whatever the order of the steps, what was printed is the list of the first primes: they
come in their order, and none is left out or printed twice. -/
theorem primes_in_order (h : Reachable s) : s.out = firstPrimes s.out.length :=
  h.inv.sifted

/-- Processes of which none can take a step wait for a message. -/
theorem Flow.rest {a : Nat} {ps : List Nat} (h : Flow ps a t) (hs : s.procs = l ++ t)
    (hlength : l.length = ps.length) (hfailed : ∀ p, .failed p ∉ t) :
    (∃ s', Work s s') ∨ ∀ r ∈ t, r.Waits := by
  induction h generalizing l with
  | nil => simp
  | top => exact Or.inl ⟨_, .own (get_split hs) rfl⟩
  | fetching => simp [Proc.Waits, Proc.accept]
  | fetched => exact Or.inl ⟨_, .print (get_split hs)⟩
  | printed => exact Or.inl ⟨_, .fork (get_split hs)⟩
  | looping | testing => exact Or.inl ⟨_, .own (get_split hs) rfl⟩
  | @receiving ps a p t _ _ _ _ ih =>
      have hrest := @ih (l ++ [.receiving p (ps.length + 1)]) (by simp [hs]) (by simp [hlength])
        (fun q hq => hfailed q (by simp [hq]))
      rcases hrest with hwork | hwait
      · exact Or.inl hwork
      · refine Or.inr (fun r hr => ?_)
        rcases List.mem_cons.mp hr with rfl | hr
        · simp [Proc.Waits, Proc.accept]
        · exact hwait r hr
  | @sending ps a p i t _ _ _ _ _ hne _ ih =>
      have hrest := @ih (l ++ [.sending p (ps.length + 1) i]) (by simp [hs]) (by simp [hlength])
        (fun q hq => hfailed q (by simp [hq]))
      rcases hrest with hwork | hwait
      · exact Or.inl hwork
      · obtain ⟨r, t, rfl⟩ := List.exists_cons_of_ne_nil hne
        obtain ⟨r', hr⟩ := Option.isSome_iff_exists.mp (hwait r (by simp) i)
        have hnext : s.procs[ps.length + 1]? = some r := by simp [hs, ← hlength]
        exact Or.inl ⟨_, .send (get_split hs) hnext hr⟩
  | failed => exact absurd (List.mem_cons_self ..) (hfailed _)

/-- The process has a number that it will pass on or make its prime. -/
def Proc.holds : Proc → Nat
  | .fetched _ | .printed _ | .testing _ _ _ | .sending _ _ _ => 1
  | _ => 0

/-- How many steps a process and its number can cause, if the chain has at most `m` processes
from here on. -/
def Proc.work (m : Nat) : Proc → Nat
  | .top | .looping _ _ => 1
  | .fetched _ => 4
  | .printed _ => 3
  | .testing _ _ _ => 3 * m + 4
  | .sending _ _ _ => 3 * m + 3
  | _ => 0

def work : Nat → List Proc → Nat
  | _, [] => 0
  | m, r :: l => r.work m + work (m - 1) l

/-- How long the chain can get without a new number. -/
def slots (l : List Proc) : Nat := l.length + (l.map Proc.holds).sum

theorem work_append {m : Nat} : work m (l ++ t) = work m l + work (m - l.length) t := by
  induction l generalizing m with
  | nil => simp [work]
  | cons r l ih =>
      simp only [List.cons_append, work, ih, List.length_cons]
      rw [show m - 1 - l.length = m - (l.length + 1) by omega, Nat.add_assoc]

theorem work_mono {m n : Nat} (h : m ≤ n) : work m l ≤ work n l := by
  induction l generalizing m n with
  | nil => exact Nat.le_refl _
  | cons r l ih =>
      have hrest : work (m - 1) l ≤ work (n - 1) l := ih (by omega)
      have hhead : r.work m ≤ r.work n := by cases r <;> simp [Proc.work] <;> omega
      simp only [work]
      omega

theorem Proc.own_work {m : Nat} (h : r.own = some r') :
    r'.holds ≤ r.holds ∧ r'.work m < r.work m := by
  cases r with
  | top | looping => cases h; simp [Proc.holds, Proc.work]
  | testing p id i =>
      cases h
      split
      · simp [Proc.holds, Proc.work]
      · simp [Proc.holds, Proc.work]
  | fetching | fetched | printed | receiving | sending | failed => cases h

theorem Proc.accept_work {m : Nat} (h : r.accept i = some r') :
    r.holds = 0 ∧ r'.holds = 1 ∧ r.work m = 0 ∧ r'.work m ≤ 3 * m + 4 := by
  cases r with
  | fetching | receiving => cases h; simp [Proc.holds, Proc.work]
  | top | fetched | printed | looping | testing | sending | failed => cases h

/-- A step makes the chain no longer than it could get, and leaves less to do. -/
theorem Local.less {m : Nat} {out : List Nat} (h : Local k t t' out) (hm : slots t ≤ m) :
    slots t' ≤ slots t ∧ work m t' < work m t := by
  cases h with
  | own hown =>
      obtain ⟨hholds, hwork⟩ := Proc.own_work (m := m) hown
      constructor
      · simp [slots]
        omega
      · simp [work]
        omega
  | print | forkFails | sendFails => simp [slots, work, Proc.holds, Proc.work]
  | fork => simp [slots, work, Proc.holds, Proc.work]
  | @send p i r r' t hr =>
      obtain ⟨hnone, hone, hzero, hle⟩ := Proc.accept_work (m := m - 1) hr
      have hholds : (Proc.sending p (k + 1) i).holds = 1 ∧ (Proc.looping p (k + 1)).holds = 0 :=
        ⟨rfl, rfl⟩
      have hwork : (Proc.sending p (k + 1) i).work m = 3 * m + 3 ∧
          (Proc.looping p (k + 1)).work m = 1 := ⟨rfl, rfl⟩
      simp only [slots, List.length_cons, List.map_cons, List.sum_cons] at hm ⊢
      simp only [work]
      omega

theorem Work.less (h : Work s s') (hs : Inv s) :
    work (slots s'.procs) s'.procs < work (slots s.procs) s.procs := by
  obtain ⟨l, t, t', out, hprocs, rfl, hlocal⟩ := h.local hs
  have hslots : ∀ m, slots (l ++ m) = slots l + slots m := fun m => by
    simp [slots]
    omega
  have hlength : l.length ≤ slots l := by simp [slots]
  have hless := hlocal.less (m := slots l + slots t - l.length) (by omega)
  calc work (slots (l ++ t')) (l ++ t')
      ≤ work (slots (l ++ t)) (l ++ t') := work_mono (by rw [hslots, hslots]; omega)
    _ < work (slots (l ++ t)) (l ++ t) := by rw [work_append, work_append, hslots]; omega
    _ = work (slots s.procs) s.procs := by rw [hprocs]

/-- The processes take finitely many steps until `umain` sends the next number. -/
theorem Inv.acc (hs : Inv s) : Acc (fun s₂ s₁ => Work s₁ s₂) s := by
  induction hn : work (slots s.procs) s.procs using Nat.strong_induction_on generalizing s with
  | _ n ih => exact ⟨s, fun s' h => ih _ (hn ▸ h.less hs) (h.inv hs) rfl⟩

/-- The number that `umain` sends next. -/
def Gen.next : Gen → Option Nat
  | .starting => some 2
  | .sending _ i => some i
  | .sent _ i => some (i + 1)
  | .failed => none

theorem Front.complete {g : Gen} {a : Nat} (h : Front g a l) (hflow : Flow [] a l)
    (hnext : g.next = some i) (hwait : ∀ r ∈ l, r.Waits) :
    Clear (l.flatMap Proc.shown) 0 i ∧ ∀ p ∈ l.flatMap Proc.shown, p < i := by
  cases h with
  | starting =>
      cases hnext
      constructor
      · rintro n - hn ⟨htwo, -⟩
        omega
      · simp
  | sending _ hne | sent _ hne =>
      cases hnext
      exact ⟨hflow.clear hne hwait, hflow.shown_lt⟩
  | failed => cases hnext

/-- The generator can send to a process that waits. -/
theorem Front.step {g : Gen} {a : Nat} (h : Front g a l) (hs : s.gen = g) (hl : s.procs = l)
    (hnext : g.next = some i) (hi : i < 2 ^ 31) (hwait : ∀ r ∈ l, r.Waits) : ∃ s', Step s s' := by
  cases h with
  | starting => exact ⟨_, .start hs⟩
  | sending _ hne =>
      obtain ⟨r, t, rfl⟩ := List.exists_cons_of_ne_nil hne
      obtain ⟨r', hr⟩ := Option.isSome_iff_exists.mp (hwait r (by simp) a)
      have hfirst : s.procs[0]? = some r := by simp [hl]
      exact ⟨_, .send hs hfirst hr⟩
  | sent _ _ =>
      cases hnext
      exact ⟨_, .next hs hi⟩
  | failed => cases hnext

/-- However the processes are scheduled, they take finitely many steps between two numbers of
`umain`.  When they rest and nobody has failed, exactly the primes below the next number have
been printed, and `umain` goes on. -/
theorem primes_settle (h : Reachable s) : Acc (fun s₂ s₁ => Work s₁ s₂) s ∧
    ((∀ s', ¬ Work s s') → (∀ p, .failed p ∉ s.procs) → ∀ i, s.gen.next = some i →
      (∀ n, n ∈ s.out ↔ n.Prime ∧ n < i) ∧ (i < 2 ^ 31 → ∃ s', Step s s')) := by
  refine ⟨h.inv.acc, fun hrest hfailed i hnext => ?_⟩
  obtain ⟨⟨a, hfront, hflow⟩, hout⟩ := h.inv
  have hwait : ∀ r ∈ s.procs, r.Waits := by
    rcases hflow.rest (l := []) rfl rfl hfailed with ⟨s', hs'⟩ | hwait
    · exact absurd hs' (hrest s')
    · exact hwait
  obtain ⟨hclear, hlt⟩ := hfront.complete hflow hnext hwait
  refine ⟨fun n => ?_, fun hi => hfront.step rfl rfl hnext hi hwait⟩
  rw [← hout] at hclear hlt
  constructor
  · intro hn
    refine ⟨prime_of_mem_firstPrimes (k := s.out.length) ?_, hlt n hn⟩
    rwa [← h.inv.sifted]
  · rintro ⟨hprime, hlt'⟩
    by_contra hnot
    refine hclear n (Nat.zero_le n) hlt' ⟨hprime.two_le, fun q hq hdvd => ?_⟩
    rw [h.inv.sifted] at hq
    have heq := (Nat.prime_dvd_prime_iff_eq (prime_of_mem_firstPrimes hq) hprime).mp hdvd
    rw [← h.inv.sifted, heq] at hq
    exact hnot hq

end Steps

section Example

/-- The first two primes have been printed, and the second process has its prime. -/
def twoPrimes : Chain where
  gen := .sent 0 3
  procs := [.looping 2 1, .printed 3]
  out := [2, 3]

theorem reachable_two : Reachable twoPrimes := by
  have h₁ := Relation.ReflTransGen.tail .refl (Step.start (s := init) rfl)
  have h₂ := h₁.tail (.work (.own (k := 0) rfl rfl))
  have h₃ := h₂.tail (.send rfl rfl rfl)
  have h₄ := h₃.tail (.work (.print (k := 0) rfl))
  have h₅ := h₄.tail (.work (.fork (k := 0) rfl))
  have h₆ := h₅.tail (.work (.own (k := 0) rfl rfl))
  have h₇ := h₆.tail (.next rfl (by decide))
  have h₈ := h₇.tail (.send rfl rfl rfl)
  have h₉ := h₈.tail (.work (.own (k := 1) rfl rfl))
  have h₁₀ := h₉.tail (.work (.own (k := 0) rfl rfl))
  have h₁₁ := h₁₀.tail (.work (.send (k := 0) rfl rfl rfl))
  exact h₁₁.tail (.work (.print (k := 1) rfl))

theorem primes_in_order_two : [2, 3] = firstPrimes 2 :=
  primes_in_order reachable_two

/-- Everybody waits for the number four. -/
def fourNext : Chain where
  gen := .sending 0 4
  procs := [.receiving 2 1, .receiving 3 2, .fetching]
  out := [2, 3]

theorem reachable_four : Reachable fourNext := by
  have h₁ := reachable_two.tail (.work (.fork (k := 1) rfl))
  have h₂ := h₁.tail (.next rfl (by decide))
  have h₃ := h₂.tail (.work (.own (k := 0) rfl rfl))
  have h₄ := h₃.tail (.work (.own (k := 1) rfl rfl))
  exact h₄.tail (.work (.own (k := 2) rfl rfl))

theorem four_rests (s' : Chain) : ¬ Work fourNext s' := by
  intro h
  have hmem : ∀ {k : Nat} {r : Proc}, fourNext.procs[k]? = some r →
      r = .receiving 2 1 ∨ r = .receiving 3 2 ∨ r = .fetching := by
    intro k r hk
    simpa [fourNext] using List.mem_of_getElem? hk
  cases h with
  | own hk hown => rcases hmem hk with rfl | rfl | rfl <;> cases hown
  | print hk | fork hk | forkFails hk | send hk | sendFails hk => simpa using hmem hk

theorem primes_settle_four : Acc (fun s₂ s₁ => Work s₁ s₂) fourNext ∧
    (∀ n, n ∈ [2, 3] ↔ n.Prime ∧ n < 4) ∧ ∃ s', Step fourNext s' := by
  obtain ⟨hacc, hrest⟩ := primes_settle reachable_four
  obtain ⟨hout, hnext⟩ := hrest four_rests (by simp [fourNext]) 4 rfl
  exact ⟨hacc, hout, hnext (by decide)⟩

end Example

end Jos.Primes

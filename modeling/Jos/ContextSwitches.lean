import Jos.TrapFrames

/-!
# Context switches

Processors run environments and enter the kernel at any time, each on its own stack.  One
that was trapped waits for the kernel lock before `trap` copies the frame from the stack to
`env_tf`; `env_run` releases the lock before `env_pop_tf` loads the registers.  In between
the kernel runs other environments, and changes frames of those that do not run, as system
calls do.

* `registers_kept`: whenever an environment is resumed, on whatever processor, all its
  registers are what they were when it was trapped last, with the changes the kernel made.
-/

namespace Jos

namespace TrapFrames

open Bytes

/-- What a processor does. -/
inductive Mode where
  | user (e : Nat) (r : Regs)
  /-- in `trap`, waiting for the kernel lock -/
  | entered (e : Nat) (tf : U32)
  | kernel
  /-- in `env_run`, the kernel lock has been released -/
  | leaving (e : Nat)
  | halted

/-- The environment that a processor runs. -/
def Mode.env : Mode → Option Nat
  | .user e _ | .entered e _ | .leaving e => some e
  | .kernel | .halted => none

/-- The processors, with the memory of the kernel. -/
structure Computer where
  mem : Bytes.Memory
  mode : Fin ncpuMax → Mode

/-- What happens to the registers of an environment. -/
inductive Event where
  | trapped (e : Nat) (r : Regs)
  | edited (e : Nat) (f : Regs → Regs)
  | resumed (e : Nat) (r : Regs)

/-- The registers that an environment should have. -/
def Event.after (A : Nat → Regs) : Event → Nat → Regs
  | .trapped e r => Function.update A e r
  | .edited e f => Function.update A e (f (A e))
  | .resumed _ _ => A

/-- `&envs[e].env_tf`. -/
def envTf (envs : U32) (e : Nat) : U32 := envs + BitVec.ofNat 32 (124 * e)

def envRegs (envs : U32) (v : Bytes.Memory) (e : Nat) : Regs :=
  regsOf (frameIn v (envTf envs e).toNat)

/-- The address is in the `env_tf` of an environment. -/
def InEnvTf (envs : U32) (e x : Nat) : Prop :=
  (envTf envs e).toNat ≤ x ∧ x < (envTf envs e).toNat + 68

/-- The address is on the stack of a processor. -/
def OnStack (c : Fin ncpuMax) (x : Nat) : Prop :=
  (kstacktopOf c - kstksize).toNat ≤ x ∧ x < (kstacktopOf c).toNat

/-- Memory that this processor changes while it is in the kernel: no stack of another one,
and no frame besides one. -/
structure Changes (envs : U32) (c : Fin ncpuMax) (edited : Option Nat) (v v' : Bytes.Memory) :
    Prop where
  frames : ∀ e x, e < nenv → edited ≠ some e → InEnvTf envs e x → v' x = v x
  others : ∀ c' x, c' ≠ c → OnStack c' x → v' x = v x

namespace Computer

def setMode (s : Computer) (c : Fin ncpuMax) (m : Mode) : Computer :=
  { s with mode := Function.update s.mode c m }

/-- Nobody runs the environment. -/
def Rests (s : Computer) (e : Nat) : Prop := ∀ c, (s.mode c).env ≠ some e

/-- Nobody has the kernel lock. -/
def Unlocked (s : Computer) : Prop := ∀ c, s.mode c ≠ .kernel

end Computer

/-- A step of a processor, with what it does to the registers of an environment. -/
inductive Step (hw : Hardware) (envs : U32) (s : Computer) : Option Event → Computer → Prop where
  /-- An environment does not write the memory of the kernel. -/
  | user {c e r r' v} : s.mode c = .user e r → r'.cs &&& 3#16 = 3#16 →
      (∀ x, ulim.toNat ≤ x → v x = s.mem x) →
      Step hw envs s none (Computer.setMode { s with mem := v } c (.user e r'))
  | trap {c e r n h err t} : s.mode c = .user e r → (n, h) ∈ idt →
      (err.isSome ↔ PushesError n) → t = enter hw (kstacktopOf c) n h err ⟨r, s.mem⟩ →
      Step hw envs s (some (.trapped e r))
        (Computer.setMode { s with mem := t.mem } c
          (.entered e (word t.mem (t.regs.esp.toNat + 4))))
  /-- `curenv->env_tf = *tf`. -/
  | save {c e tf} : s.mode c = .entered e tf → s.Unlocked →
      Step hw envs s none (Computer.setMode
        { s with mem := move s.mem (envTf envs e).toNat tf.toNat 68 } c .kernel)
  | work {c v} : s.mode c = .kernel → Changes envs c none s.mem v →
      Step hw envs s none { s with mem := v }
  | edit {c e f v} : s.mode c = .kernel → e < nenv → s.Rests e → Changes envs c (some e) s.mem v →
      envRegs envs v e = f (envRegs envs s.mem e) →
      Step hw envs s (some (.edited e f)) { s with mem := v }
  | run {c e} : s.mode c = .kernel → e < nenv → s.Rests e →
      (frameIn s.mem (envTf envs e).toNat).FromUser →
      Step hw envs s none (s.setMode c (.leaving e))
  | pop {c e r t} : s.mode c = .leaving e → t = envPopTf hw (envTf envs e) ⟨r, s.mem⟩ →
      Step hw envs s (some (.resumed e t.regs))
        (Computer.setMode { s with mem := t.mem } c (.user e t.regs))
  | halt {c} : s.mode c = .kernel → Step hw envs s none (s.setMode c .halted)
  | wake {c v} : s.mode c = .halted → s.Unlocked → Changes envs c none s.mem v →
      Step hw envs s none (Computer.setMode { s with mem := v } c .kernel)

/-- Steps of all processors in any order, with what they do. -/
inductive Run (hw : Hardware) (envs : U32) (s : Computer) : List Event → Computer → Prop where
  | nil : Run hw envs s [] s
  | snoc {log ev s₁ s₂} : Run hw envs s log s₁ → Step hw envs s₁ ev s₂ →
      Run hw envs s (log ++ ev.toList) s₂

/-- The array of environments is in the memory that `KERNBASE` begins. -/
structure EnvArray (envs : U32) : Prop where
  low : kernbase ≤ envs
  high : envs.toNat + 124 * nenv ≤ 2 ^ 32

/-- What every run keeps: an environment has its registers in its frame while it does not
run, and on the stack of the processor that has trapped it. -/
structure Kept (envs : U32) (A : Nat → Regs) (s : Computer) : Prop where
  saved : ∀ e, e < nenv → s.Rests e → envRegs envs s.mem e = A e
  leaving : ∀ c e, s.mode c = .leaving e → envRegs envs s.mem e = A e ∧
    (frameIn s.mem (envTf envs e).toNat).FromUser
  entered : ∀ c e tf, s.mode c = .entered e tf → tf.toNat + 68 = (kstacktopOf c).toNat ∧
    regsOf (frameIn s.mem tf.toNat) = A e
  unique : ∀ c c' e, (s.mode c).env = some e → (s.mode c').env = some e → c = c'
  bound : ∀ c e, (s.mode c).env = some e → e < nenv

section Places

variable {envs : U32} {e e' x : Nat} {c c' : Fin ncpuMax} {v v' : Bytes.Memory} {tf : U32}

theorem envTf_toNat (h : EnvArray envs) (he : e < nenv) :
    (envTf envs e).toNat = envs.toNat + 124 * e := by
  have hhigh := h.high
  unfold envTf
  rw [BitVec.toNat_add, BitVec.toNat_ofNat]
  omega

theorem kernbase_nat : kernbase.toNat = 0xF0000000 ∧ ulim.toNat = 0xEF800000 := by decide

/-- Stacks are above `ULIM` and below `KERNBASE`. -/
theorem OnStack.bounds (h : OnStack c x) : ulim.toNat ≤ x ∧ x < kernbase.toNat := by
  obtain ⟨hlo, hhi⟩ := h
  have hc : c.val < 8 := c.isLt
  rw [kstack_toNat c.isLt] at hlo
  rw [kstacktopOf_toNat c.isLt] at hhi
  rw [kernbase_nat.1, kernbase_nat.2]
  omega

theorem OnStack.unique (h : OnStack c x) (h' : OnStack c' x) : c = c' := by
  obtain ⟨hlo, hhi⟩ := h
  obtain ⟨hlo', hhi'⟩ := h'
  have hc : c.val < 8 := c.isLt
  have hc' : c'.val < 8 := c'.isLt
  rw [kstack_toNat c.isLt] at hlo
  rw [kstacktopOf_toNat c.isLt] at hhi
  rw [kstack_toNat c'.isLt] at hlo'
  rw [kstacktopOf_toNat c'.isLt] at hhi'
  refine Fin.ext ?_
  omega

theorem InEnvTf.low (h : EnvArray envs) (he : e < nenv) (hx : InEnvTf envs e x) :
    kernbase.toNat ≤ x := by
  have hlow : kernbase.toNat ≤ envs.toNat := h.low
  have hx := hx.1
  rw [envTf_toNat h he] at hx
  omega

theorem InEnvTf.unique (h : EnvArray envs) (he : e < nenv) (he' : e' < nenv)
    (hx : InEnvTf envs e x) (hx' : InEnvTf envs e' x) : e = e' := by
  unfold InEnvTf at hx hx'
  rw [envTf_toNat h he] at hx
  rw [envTf_toNat h he'] at hx'
  omega

/-- What is written when a trap is entered is on the stack. -/
theorem onStack_top (hlo : (kstacktopOf c).toNat - 76 ≤ x) (hhi : x < (kstacktopOf c).toNat) :
    OnStack c x := by
  refine ⟨?_, hhi⟩
  have hc : c.val < 8 := c.isLt
  rw [kstacktopOf_toNat c.isLt] at hlo
  rw [kstack_toNat c.isLt]
  omega

theorem kstacktopOf_le (c : Fin ncpuMax) :
    76 ≤ (kstacktopOf c).toNat ∧ (kstacktopOf c).toNat ≤ kernbase.toNat := by
  have hc : c.val < 8 := c.isLt
  rw [kstacktopOf_toNat c.isLt, kernbase_nat.1]
  omega

theorem frame_end (h : EnvArray envs) (he : e < nenv) : (envTf envs e).toNat + 68 ≤ 2 ^ 32 := by
  have hhigh := h.high
  rw [envTf_toNat h he]
  omega

theorem envRegs_congr (h : ∀ x, InEnvTf envs e x → v' x = v x) :
    frameIn v' (envTf envs e).toNat = frameIn v (envTf envs e).toNat :=
  frameIn_congr (fun x hlo hhi => h x ⟨hlo, hhi⟩)

theorem stackFrame_congr (htf : tf.toNat + 68 = (kstacktopOf c).toNat)
    (h : ∀ x, OnStack c x → v' x = v x) : frameIn v' tf.toNat = frameIn v tf.toNat := by
  refine frameIn_congr (fun x hlo hhi => h x ⟨?_, by omega⟩)
  have hc : c.val < 8 := c.isLt
  rw [kstack_toNat c.isLt]
  rw [kstacktopOf_toNat c.isLt] at htf
  omega

end Places

section Keeps

variable {hw : Hardware} {envs : U32} {A : Nat → Regs} {s s' : Computer} {e : Nat}
  {c c' : Fin ncpuMax} {m : Mode} {r : Regs} {v : Bytes.Memory} {log : List Event}

theorem mode_self : (s.setMode c m).mode c = m := Function.update_self ..

theorem mode_of_ne (h : c' ≠ c) : (s.setMode c m).mode c' = s.mode c' :=
  Function.update_of_ne h ..

/-- Memory changes, but no frame and no stack of a processor that waits. -/
theorem Kept.mem (h : Kept envs A s)
    (hframes : ∀ e x, e < nenv → (s.Rests e ∨ ∃ c, s.mode c = .leaving e) → InEnvTf envs e x →
      v x = s.mem x)
    (hstacks : ∀ c e tf x, s.mode c = .entered e tf → OnStack c x → v x = s.mem x) :
    Kept envs A { s with mem := v } where
  saved := fun e he hrests => by
    rw [← h.saved e he hrests]
    exact congrArg regsOf (envRegs_congr (hframes e · he (Or.inl hrests)))
  leaving := fun c e hc => by
    have he : e < nenv := h.bound c e (congrArg Mode.env hc)
    obtain ⟨hregs, huser⟩ := h.leaving c e hc
    have hsame : frameIn v (envTf envs e).toNat = frameIn s.mem (envTf envs e).toNat :=
      envRegs_congr (hframes e · he (Or.inr ⟨c, hc⟩))
    exact ⟨(congrArg regsOf hsame).trans hregs, hsame ▸ huser⟩
  entered := fun c e tf hc => by
    obtain ⟨htf, hregs⟩ := h.entered c e tf hc
    exact ⟨htf, (congrArg regsOf (stackFrame_congr htf (hstacks c e tf · hc))).trans hregs⟩
  unique := h.unique
  bound := h.bound

/-- A processor does something else. -/
theorem Kept.setMode (h : Kept envs A s)
    (hfree : ∀ e, m.env = some e → e < nenv ∧ ∀ c', c' ≠ c → (s.mode c').env ≠ some e)
    (hsaved : ∀ e, (s.mode c).env = some e → m.env ≠ some e → envRegs envs s.mem e = A e)
    (hleaving : ∀ e, m = .leaving e → envRegs envs s.mem e = A e ∧
      (frameIn s.mem (envTf envs e).toNat).FromUser)
    (hentered : ∀ e tf, m = .entered e tf → tf.toNat + 68 = (kstacktopOf c).toNat ∧
      regsOf (frameIn s.mem tf.toNat) = A e) : Kept envs A (s.setMode c m) := by
  have hcases : ∀ c', (c' = c ∧ (s.setMode c m).mode c' = m) ∨
      (c' ≠ c ∧ (s.setMode c m).mode c' = s.mode c') := by
    intro c'
    by_cases hc : c' = c
    · exact Or.inl ⟨hc, hc ▸ mode_self⟩
    · exact Or.inr ⟨hc, mode_of_ne hc⟩
  constructor
  · intro e he hrests
    by_cases hc : (s.mode c).env = some e
    · exact hsaved e hc (fun hm => hrests c (by rw [mode_self, hm]))
    · refine h.saved e he (fun c' => ?_)
      rcases hcases c' with ⟨rfl, -⟩ | ⟨-, hmode⟩
      · exact hc
      · exact hmode ▸ hrests c'
  · intro c' e hc'
    rcases hcases c' with ⟨rfl, hmode⟩ | ⟨-, hmode⟩
    · exact hleaving e (hmode.symm.trans hc')
    · exact h.leaving c' e (hmode.symm.trans hc')
  · intro c' e tf hc'
    rcases hcases c' with ⟨rfl, hmode⟩ | ⟨-, hmode⟩
    · exact hentered e tf (hmode.symm.trans hc')
    · exact h.entered c' e tf (hmode.symm.trans hc')
  · intro c₁ c₂ e h₁ h₂
    rcases hcases c₁ with ⟨hc₁, hmode₁⟩ | ⟨hc₁, hmode₁⟩ <;>
    rcases hcases c₂ with ⟨hc₂, hmode₂⟩ | ⟨hc₂, hmode₂⟩ <;>
    rw [hmode₁] at h₁ <;> rw [hmode₂] at h₂
    · exact hc₁.trans hc₂.symm
    · exact absurd h₂ ((hfree e h₁).2 c₂ hc₂)
    · exact absurd h₁ ((hfree e h₂).2 c₁ hc₁)
    · exact h.unique c₁ c₂ e h₁ h₂
  · intro c' e hc'
    rcases hcases c' with ⟨rfl, hmode⟩ | ⟨-, hmode⟩ <;> rw [hmode] at hc'
    · exact (hfree e hc').1
    · exact h.bound c' e hc'

/-- A processor goes on with its environment. -/
theorem Kept.free (h : Kept envs A s) (hc : (s.mode c).env = m.env) (e : Nat)
    (hm : m.env = some e) : e < nenv ∧ ∀ c', c' ≠ c → (s.mode c').env ≠ some e :=
  ⟨h.bound c e (hc.trans hm), fun c' hne hc' => hne (h.unique c' c e hc' (hc.trans hm))⟩

/-- An environment that runs user code has no frame that matters. -/
theorem Kept.update (h : Kept envs A s) (hc : (s.mode c).env = some e)
    (hleaving : ∀ e, s.mode c ≠ .leaving e) (hentered : ∀ e tf, s.mode c ≠ .entered e tf) :
    Kept envs (Function.update A e r) s := by
  have hother : ∀ c' e', (s.mode c').env = some e' → c' ≠ c → e' ≠ e := by
    rintro c' e' hc' hne rfl
    exact hne (h.unique c' c _ hc' hc)
  constructor
  · intro e' he' hrests
    have hne : e' ≠ e := by
      rintro rfl
      exact hrests c hc
    rw [Function.update_of_ne hne]
    exact h.saved e' he' hrests
  · intro c' e' hc'
    have hcc : c' ≠ c := by
      rintro rfl
      exact hleaving e' hc'
    rw [Function.update_of_ne (hother c' e' (by simp [hc', Mode.env]) hcc)]
    exact h.leaving c' e' hc'
  · intro c' e' tf hc'
    have hcc : c' ≠ c := by
      rintro rfl
      exact hentered e' tf hc'
    rw [Function.update_of_ne (hother c' e' (by simp [hc', Mode.env]) hcc)]
    exact h.entered c' e' tf hc'
  · exact h.unique
  · exact h.bound

/-- The kernel works, and changes no frame. -/
theorem Kept.works (h : Kept envs A s) (hc : (s.mode c).env = none)
    (hv : Changes envs c none s.mem v) : Kept envs A { s with mem := v } := by
  refine h.mem (fun e x he _ hx => hv.frames e x he (by simp) hx) (fun c' e tf x hc' hx => ?_)
  refine hv.others c' x ?_ hx
  rintro rfl
  rw [hc'] at hc
  cases hc

/-- A processor without an environment goes on without one. -/
theorem Kept.idle (h : Kept envs A s) (hc : (s.mode c).env = none) (hm : m.env = none) :
    Kept envs A (s.setMode c m) := by
  refine h.setMode (fun e he => ?_) (fun e he _ => ?_) (fun e he => ?_) (fun e tf he => ?_)
  · rw [hm] at he
    cases he
  · rw [hc] at he
    cases he
  · rw [he] at hm
    cases hm
  · rw [he] at hm
    cases hm

/-- The kernel changes the registers in the frame of an environment that does not run. -/
theorem Kept.edit (h : Kept envs A s) (hc : s.mode c = .kernel) (he : e < nenv)
    (hrests : s.Rests e) (hv : Changes envs c (some e) s.mem v)
    (hregs : envRegs envs v e = r) : Kept envs (Function.update A e r) { s with mem := v } := by
  have hother : ∀ c' e', (s.mode c').env = some e' → e' ≠ e := by
    rintro c' e' hc' rfl
    exact hrests c' hc'
  have hframe : ∀ e', e' < nenv → e' ≠ e →
      frameIn v (envTf envs e').toNat = frameIn s.mem (envTf envs e').toNat :=
    fun e' he' hne => envRegs_congr (fun x hx => hv.frames e' x he' (by simpa using hne.symm) hx)
  constructor
  · intro e' he' hrests'
    by_cases hee : e' = e
    · subst hee
      rw [Function.update_self]
      exact hregs
    · rw [Function.update_of_ne hee, ← h.saved e' he' hrests']
      exact congrArg regsOf (hframe e' he' hee)
  · intro c' e' hc'
    have hne := hother c' e' (congrArg Mode.env hc')
    have hsame := hframe e' (h.bound c' e' (congrArg Mode.env hc')) hne
    obtain ⟨hsaved, huser⟩ := h.leaving c' e' hc'
    rw [Function.update_of_ne hne]
    exact ⟨(congrArg regsOf hsame).trans hsaved, hsame ▸ huser⟩
  · intro c' e' tf hc'
    have hcc : c' ≠ c := by
      rintro rfl
      cases hc.symm.trans hc'
    obtain ⟨htf, hstack⟩ := h.entered c' e' tf hc'
    rw [Function.update_of_ne (hother c' e' (congrArg Mode.env hc'))]
    exact ⟨htf, (congrArg regsOf
      (stackFrame_congr htf (fun x hx => hv.others c' x hcc hx))).trans hstack⟩
  · exact h.unique
  · exact h.bound

theorem Step.resumed (henvs : EnvArray envs) (h : Kept envs A s)
    (hstep : Step hw envs s (some (.resumed e r)) s') : r = A e := by
  cases hstep with
  | @pop c _ r t hc ht =>
      obtain ⟨hregs, huser⟩ := h.leaving c e hc
      have he : e < nenv := h.bound c e (congrArg Mode.env hc)
      rw [ht, envPopTf_regs (s := ⟨r, s.mem⟩) (frame_end henvs he) huser]
      exact hregs

theorem Kept.step {ev : Option Event} (henvs : EnvArray envs) (h : Kept envs A s)
    (hstep : Step hw envs s ev s') : Kept envs (ev.toList.foldl Event.after A) s' := by
  cases hstep with
  | @user c e r r' v hc hcs hv =>
      have hmem : Kept envs A { s with mem := v } := by
        refine h.mem (fun e x he _ hx => ?_) (fun c e tf x _ hx => hv x hx.bounds.1)
        have hlow := hx.low henvs he
        refine hv x ?_
        rw [kernbase_nat.1] at hlow
        rw [kernbase_nat.2]
        omega
      refine hmem.setMode (hmem.free (by simp [hc, Mode.env])) (fun e' he' hm => ?_) ?_ ?_
      · simp [hc, Mode.env] at he' hm
        exact absurd he' hm
      · rintro e' ⟨⟩
      · rintro e' tf ⟨⟩
  | @trap c e r n h' err t hc hn herr ht =>
      have hentered : Entered s.mem (kstacktopOf c) n err r t :=
        ht ▸ enter_frame (s := ⟨r, s.mem⟩) hn herr (kstacktopOf_le c).1
      have hregs : Kept envs (Function.update A e r) s :=
        h.update (congrArg Mode.env hc) (by simp [hc]) (by simp [hc])
      have hmem : Kept envs (Function.update A e r) { s with mem := t.mem } := by
        refine hregs.mem (fun e' x he' _ hx => ?_) (fun c' e' tf x hc' hx => ?_)
        · have hlow := hx.low henvs he'
          have htop := (kstacktopOf_le c).2
          exact hentered.outside x (Or.inr (by omega))
        · refine hentered.outside x ?_
          by_contra hon
          have hcc : c' = c := hx.unique (onStack_top (by omega) (by omega))
          rw [hcc, hc] at hc'
          cases hc'
      have henv : (s.mode c).env = some e := congrArg Mode.env hc
      refine hmem.setMode (hmem.free henv) (fun e' he' hm => ?_) ?_ ?_
      · exact absurd (henv.symm.trans he') hm
      · rintro e' ⟨⟩
      · rintro e' tf ⟨⟩
        have harg := hentered.arg
        refine ⟨harg, ?_⟩
        rw [Function.update_self, ← hentered.regs, ← harg, Nat.add_sub_cancel]
  | @save c e tf hc hfree =>
      obtain ⟨htf, hregs⟩ := h.entered c e tf hc
      have he : e < nenv := h.bound c e (congrArg Mode.env hc)
      have hmem : Kept envs A { s with mem := move s.mem (envTf envs e).toNat tf.toNat 68 } := by
        refine h.mem (fun e' x he' hother hx => ?_) (fun c' e' tf x _ hx => ?_)
        · have hne : e' ≠ e := by
            rintro rfl
            rcases hother with hrests | ⟨c', hc'⟩
            · exact hrests c (congrArg Mode.env hc)
            · obtain rfl := h.unique c' c e' (congrArg Mode.env hc') (congrArg Mode.env hc)
              rw [hc] at hc'
              cases hc'
          refine move_of_apart ?_
          by_contra hin
          exact hne (hx.unique henvs he' he ⟨by omega, by omega⟩)
        · have hlt := hx.bounds.2
          have hlow : InEnvTf envs e (envTf envs e).toNat := ⟨by omega, by omega⟩
          have hlow := hlow.low henvs he
          exact move_of_apart (by omega)
      refine hmem.setMode (fun e' hm => nomatch hm) (fun e' he' _ => ?_) ?_ ?_
      · have hee : e = e' :=
          Option.some.inj ((congrArg Mode.env hc).symm.trans he')
        rw [← hee, ← hregs]
        refine congrArg regsOf (frameIn_shift (fun k hk => ?_))
        simp [move, hk]
      · rintro e' ⟨⟩
      · rintro e' tf ⟨⟩
  | work hc hv => exact h.works (congrArg Mode.env hc) hv
  | @edit c e f v hc he hrests hv hregs =>
      exact h.edit hc he hrests hv (hregs.trans (congrArg f (h.saved e he hrests)))
  | @run c e hc he hrests huser =>
      refine h.setMode (fun e' hm => ?_) (fun e' he' _ => ?_) (fun e' hm => ?_) (fun e' tf hm => ?_)
      · obtain rfl : e = e' := Option.some.inj hm
        exact ⟨he, fun c' _ => hrests c'⟩
      · rw [hc] at he'
        cases he'
      · cases hm
        exact ⟨h.saved e he hrests, huser⟩
      · cases hm
  | @pop c e r t hc ht =>
      obtain ⟨-, huser⟩ := h.leaving c e hc
      have henv : (s.mode c).env = some e := congrArg Mode.env hc
      have hmem : t.mem = s.mem := by
        rw [ht, envPopTf_regs (s := ⟨r, s.mem⟩) (frame_end henvs (h.bound c e henv)) huser]
      rw [hmem]
      refine h.setMode (h.free henv) (fun e' he' hm => ?_) ?_ ?_
      · exact absurd (henv.symm.trans he') hm
      · rintro e' ⟨⟩
      · rintro e' tf ⟨⟩
  | halt hc => exact h.idle (congrArg Mode.env hc) rfl
  | wake hc hfree hv => exact (h.works (congrArg Mode.env hc) hv).idle (congrArg Mode.env hc) rfl

theorem Run.kept (henvs : EnvArray envs) (h : Kept envs A s) (hrun : Run hw envs s log s') :
    Kept envs (log.foldl Event.after A) s' := by
  induction hrun with
  | nil => exact h
  | snoc _ hstep ih =>
      rw [List.foldl_append]
      exact ih.step henvs hstep

theorem kept_start (hstart : ∀ c, (s.mode c).env = none) :
    Kept envs (envRegs envs s.mem) s := by
  have hnone : ∀ {c m}, s.mode c = m → m.env = none := fun hc => hc ▸ hstart _
  constructor
  · exact fun e _ _ => rfl
  · intro c e hc
    cases hnone hc
  · intro c e tf hc
    cases hnone hc
  · intro c c' e hc
    rw [hstart c] at hc
    cases hc
  · intro c e hc
    rw [hstart c] at hc
    cases hc

end Keeps

/-! ### An environment that goes to another processor -/

/-- `tf->tf_regs.reg_eax = w`. -/
theorem regsOf_setEax {v : Bytes.Memory} {a : Nat} {w : U32} :
    regsOf (frameIn (setWord v (a + 28) w) a) = { regsOf (frameIn v a) with eax := w } := by
  have hother : ∀ i, i + 4 ≤ 28 ∨ 32 ≤ i → word (setWord v (a + 28) w) (a + i) = word v (a + i) :=
    fun i hi => word_setWord_of_apart (by omega)
  have hfirst : word (setWord v (a + 28) w) a = word v a := hother 0 (by decide)
  simp [regsOf, frameIn, hfirst, hother]

namespace Moved

def hw : Hardware where
  pad := fun _ => 0#16
  gateFlags := fun _ => 2#32
  addl := fun f _ _ => f
  back := 0xF0100000#32

def envs : U32 := 0xF0200000#32

def cpu0 : Fin ncpuMax := ⟨0, by decide⟩

def cpu1 : Fin ncpuMax := ⟨1, by decide⟩

/-- A frame with nothing but the selector of the code of an environment. -/
def start : Computer where
  mem := setWord (fun _ => 0#8) (envTf envs 0 + 52#32).toNat 0x1B#32
  mode := fun c => if c = cpu0 then .kernel else .halted

/-- The result of a system call is zero. -/
def clearEax (r : Regs) : Regs := { r with eax := 0#32 }

theorem envArray : EnvArray envs := ⟨by decide, by decide⟩

theorem start_idle (c : Fin ncpuMax) : (start.mode c).env = none := by
  simp only [start]
  split <;> rfl

theorem start_user : (frameIn start.mem (envTf envs 0).toNat).FromUser := by decide +kernel

/-- The result is stored in the frame. -/
theorem clearEax_changes {v : Bytes.Memory} :
    Changes envs cpu0 (some 0) v (setWord v ((envTf envs 0).toNat + 28) 0#32) := by
  constructor
  · intro e x he hne hx
    refine setWord_of_apart ?_
    by_contra hin
    have hzero : e = 0 := hx.unique envArray he (by decide : 0 < nenv) ⟨by omega, by omega⟩
    exact hne (by rw [hzero])
  · intro c' x _ hx
    have hlt := hx.bounds.2
    have hlow : InEnvTf envs 0 (envTf envs 0).toNat := ⟨by omega, by omega⟩
    have hlow := hlow.low envArray (by decide)
    exact setWord_of_apart (by omega)

/-- The first processor does this, and no other one does anything. -/
def Alone (m : Mode) (s : Computer) : Prop := s.mode cpu0 = m ∧ ∀ c, c ≠ cpu0 → s.mode c = .halted

theorem Alone.setMode {m m' : Mode} {s : Computer} (h : Alone m s) (v : Bytes.Memory) :
    Alone m' (Computer.setMode { s with mem := v } cpu0 m') :=
  ⟨mode_self, fun c hc => (mode_of_ne hc).trans (h.2 c hc)⟩

theorem Alone.unlocked {m : Mode} {s : Computer} (h : Alone m s) (hm : m ≠ .kernel) :
    s.Unlocked := by
  intro c hc
  by_cases hcpu : c = cpu0
  · subst hcpu
    exact hm (h.1.symm.trans hc)
  · rw [h.2 c hcpu] at hc
    cases hc

theorem Alone.rests {m : Mode} {s : Computer} (h : Alone m s) (hm : m.env = none) :
    s.Rests 0 := by
  intro c hc
  by_cases hcpu : c = cpu0
  · subst hcpu
    rw [h.1, hm] at hc
    cases hc
  · rw [h.2 c hcpu] at hc
    cases hc

/-- The first processor runs the environment, which makes a system call. -/
theorem calls : ∃ s r, Run hw envs start [.resumed 0 r, .trapped 0 r, .edited 0 clearEax] s ∧
    Alone .kernel s := by
  have hstart : Alone .kernel start := ⟨rfl, fun c hc => if_neg hc⟩
  obtain ⟨s₁, hrun₁, h₁⟩ : ∃ s, Run hw envs start [] s ∧ Alone (.leaving 0) s :=
    ⟨_, .snoc .nil (.run hstart.1 (by decide) (hstart.rests rfl) start_user),
      hstart.setMode start.mem⟩
  obtain ⟨s₂, r, hrun₂, h₂⟩ : ∃ s r, Run hw envs start [.resumed 0 r] s ∧ Alone (.user 0 r) s :=
    ⟨_, _, hrun₁.snoc (.pop (r := envRegs envs start.mem 0) h₁.1 rfl), h₁.setMode _⟩
  obtain ⟨s₃, tf, hrun₃, h₃⟩ : ∃ s tf, Run hw envs start [.resumed 0 r, .trapped 0 r] s ∧
      Alone (.entered 0 tf) s :=
    ⟨_, _, hrun₂.snoc (.trap h₂.1 (by decide : (48, .noec) ∈ idt)
      (by decide : none.isSome ↔ PushesError 48) rfl), h₂.setMode _⟩
  obtain ⟨s₄, hrun₄, h₄⟩ : ∃ s, Run hw envs start [.resumed 0 r, .trapped 0 r] s ∧
      Alone .kernel s :=
    ⟨_, hrun₃.snoc (.save h₃.1 (h₃.unlocked (by simp))), h₃.setMode _⟩
  exact ⟨_, r, hrun₄.snoc (.edit (f := clearEax) h₄.1 (by decide) (h₄.rests rfl)
    clearEax_changes regsOf_setEax), h₄⟩

end Moved

end TrapFrames

end Jos

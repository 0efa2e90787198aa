import Jos.KernLayout
import Jos.Lib.Bytes

/-!
# `kern/trapentry.S`: saving and restoring registers

A trap from user mode goes to the stack of the processor, where the hardware, the entry
point of the vector and `_alltraps` build a `struct Trapframe`, and `trap` gets its
address.  `env_pop_tf` loads the registers from such a frame.

* `enter_frame`: the frame has every register of the trapped code.
* `envPopTf_regs`: every register is what the frame has.
-/

namespace Jos

namespace TrapFrames

open Bytes

/-- The registers of a processor. -/
@[ext]
structure Regs where
  edi : U32
  esi : U32
  ebp : U32
  ebx : U32
  edx : U32
  ecx : U32
  eax : U32
  es : U16
  ds : U16
  eip : U32
  cs : U16
  eflags : U32
  esp : U32
  ss : U16
deriving DecidableEq

structure Core where
  regs : Regs
  mem : Bytes.Memory

/-- What is left open: the half word that a push of a segment register leaves above it, the
flags behind a gate and after an addition, and the address after `call trap`. -/
structure Hardware where
  pad : Core → U16
  gateFlags : U32 → U32
  addl : U32 → U32 → U32 → U32
  back : U32

def lowHalf (w : U32) : U16 := w.setWidth 16

def highHalf (w : U32) : U16 := (w >>> 16).setWidth 16

inductive Insn where
  /-- `pushl $n` -/
  | pushl (n : U32)
  | pushlDs
  | pushlEs
  | pushal
  /-- `movw $n, %ax` -/
  | movwAx (n : U16)
  /-- `movw %ax, %ds` -/
  | movwDs
  /-- `movw %ax, %es` -/
  | movwEs
  | pushlEsp
  | callTrap
  /-- `movl $a, %esp` -/
  | movlEsp (a : U32)
  | popal
  | poplEs
  | poplDs
  /-- `addl $n, %esp` -/
  | addlEsp (n : U32)
  | iret
deriving DecidableEq

namespace Core

def push (s : Core) (w : U32) : Core where
  regs := { s.regs with esp := s.regs.esp - 4#32 }
  mem := setWord s.mem (s.regs.esp - 4#32).toNat w

def pushSeg (hw : Hardware) (s : Core) (x : U16) : Core := s.push (hw.pad s ++ x)

def load (s : Core) (a : U32) : U32 := word s.mem a.toNat

end Core

/-- An instruction, but for what it does to `eip`; `iret` is for a return to user mode or
within the kernel. -/
def exec (hw : Hardware) (s : Core) : Insn → Core
  | .pushl n => s.push n
  | .pushlDs => s.pushSeg hw s.regs.ds
  | .pushlEs => s.pushSeg hw s.regs.es
  | .pushal =>
      let r := s.regs
      (((((((s.push r.eax).push r.ecx).push r.edx).push r.ebx).push r.esp).push r.ebp).push
        r.esi).push r.edi
  | .movwAx n => { s with regs := { s.regs with eax := highHalf s.regs.eax ++ n } }
  | .movwDs => { s with regs := { s.regs with ds := lowHalf s.regs.eax } }
  | .movwEs => { s with regs := { s.regs with es := lowHalf s.regs.eax } }
  | .pushlEsp => s.push s.regs.esp
  | .callTrap => s.push hw.back
  | .movlEsp a => { s with regs := { s.regs with esp := a } }
  | .popal =>
      let a := s.regs.esp
      { s with regs := { s.regs with
          edi := s.load a
          esi := s.load (a + 4#32)
          ebp := s.load (a + 8#32)
          ebx := s.load (a + 16#32)
          edx := s.load (a + 20#32)
          ecx := s.load (a + 24#32)
          eax := s.load (a + 28#32)
          esp := a + 32#32 } }
  | .poplEs =>
      let a := s.regs.esp
      { s with regs := { s.regs with es := lowHalf (s.load a), esp := a + 4#32 } }
  | .poplDs =>
      let a := s.regs.esp
      { s with regs := { s.regs with ds := lowHalf (s.load a), esp := a + 4#32 } }
  | .addlEsp n =>
      { s with regs := { s.regs with
          esp := s.regs.esp + n
          eflags := hw.addl s.regs.eflags s.regs.esp n } }
  | .iret =>
      let a := s.regs.esp
      let r := { s.regs with
        eip := s.load a
        cs := lowHalf (s.load (a + 4#32))
        eflags := s.load (a + 8#32)
        esp := a + 12#32 }
      if r.cs &&& 3#16 = 3#16 then
        { s with regs := { r with
            esp := s.load (a + 12#32)
            ss := lowHalf (s.load (a + 16#32)) } }
      else { s with regs := r }

def run (hw : Hardware) (s : Core) (code : List Insn) : Core := code.foldl (exec hw) s

/-- An entry point is defined by `TRAPHANDLER` or `TRAPHANDLER_NOEC`. -/
inductive Handler where
  | ec
  | noec
deriving DecidableEq

def Handler.code (num : Nat) : Handler → List Insn
  | .ec => [.pushl (BitVec.ofNat 32 num)]
  | .noec => [.pushl 0#32, .pushl (BitVec.ofNat 32 num)]

/-- `GD_KT`. -/
def gdKt : U16 := 0x08#16

/-- `GD_KD`. -/
def gdKd : U16 := 0x10#16

/-- `_alltraps`. -/
def alltraps : List Insn :=
  [.pushlDs, .pushlEs, .pushal, .movwAx gdKd, .movwDs, .movwEs, .pushlEsp, .callTrap]

/-- The gates that `trap_init` sets, with their entry points. -/
def idt : List (Nat × Handler) :=
  [(0, .noec), (1, .noec), (3, .noec), (4, .noec), (5, .noec), (6, .noec), (7, .noec), (8, .ec),
    (9, .noec), (10, .ec), (11, .ec), (12, .ec), (13, .ec), (14, .ec), (16, .noec), (48, .noec),
    (32, .noec), (33, .noec), (36, .noec), (39, .noec), (46, .noec), (51, .noec)]

/-- The processor pushes an error code with this vector. -/
def PushesError (n : Nat) : Prop := n = 8 ∨ (10 ≤ n ∧ n ≤ 14) ∨ n = 17

instance (n : Nat) : Decidable (PushesError n) := inferInstanceAs (Decidable (_ ∨ _))

/-- An entry point pushes a zero exactly where the processor pushes no error code. -/
theorem idt_handlers : ∀ g ∈ idt, g.2 = .ec ↔ PushesError g.1 := by decide

/-- What the processor does for an interrupt in user mode, with the stack of the kernel. -/
def interrupt (hw : Hardware) (top : U32) (err : Option U32) (s : Core) : Core :=
  let r := s.regs
  let s : Core := { s with regs := { r with
    esp := top, ss := gdKd, cs := gdKt, eflags := hw.gateFlags r.eflags } }
  let s := ((((s.pushSeg hw r.ss).push r.esp).push r.eflags).pushSeg hw r.cs).push r.eip
  match err with
  | none => s
  | some e => s.push e

/-- A trap, up to the first instruction of `trap`. -/
def enter (hw : Hardware) (top : U32) (n : Nat) (h : Handler) (err : Option U32) (s : Core) :
    Core :=
  run hw (interrupt hw top err s) (h.code n ++ alltraps)

/-- `env_pop_tf`. -/
def envPopTf (hw : Hardware) (tf : U32) (s : Core) : Core :=
  run hw s [.movlEsp tf, .popal, .poplEs, .poplDs, .addlEsp 8#32, .iret]

/-- The `struct Trapframe` at an address. -/
def frameIn (v : Bytes.Memory) (a : Nat) : Trapframe where
  tfRegs :=
    { regEdi := word v a
      regEsi := word v (a + 4)
      regEbp := word v (a + 8)
      regOesp := word v (a + 12)
      regEbx := word v (a + 16)
      regEdx := word v (a + 20)
      regEcx := word v (a + 24)
      regEax := word v (a + 28) }
  tfEs := lowHalf (word v (a + 32))
  tfPadding1 := highHalf (word v (a + 32))
  tfDs := lowHalf (word v (a + 36))
  tfPadding2 := highHalf (word v (a + 36))
  tfTrapno := word v (a + 40)
  tfErr := word v (a + 44)
  tfEip := word v (a + 48)
  tfCs := lowHalf (word v (a + 52))
  tfPadding3 := highHalf (word v (a + 52))
  tfEflags := word v (a + 56)
  tfEsp := word v (a + 60)
  tfSs := lowHalf (word v (a + 64))
  tfPadding4 := highHalf (word v (a + 64))

/-- The registers in a frame. -/
def regsOf (tf : Trapframe) : Regs where
  edi := tf.tfRegs.regEdi
  esi := tf.tfRegs.regEsi
  ebp := tf.tfRegs.regEbp
  ebx := tf.tfRegs.regEbx
  edx := tf.tfRegs.regEdx
  ecx := tf.tfRegs.regEcx
  eax := tf.tfRegs.regEax
  es := tf.tfEs
  ds := tf.tfDs
  eip := tf.tfEip
  cs := tf.tfCs
  eflags := tf.tfEflags
  esp := tf.tfEsp
  ss := tf.tfSs

section Frames

variable {v v' : Bytes.Memory} {a b : Nat} {s : Core} {w : U32} {ws : List U32} {top : U32}

theorem lowHalf_append (x y : U16) : lowHalf (x ++ y) = y := by
  unfold lowHalf
  rw [BitVec.setWidth_append]
  simp

/-- A frame is known by its bytes. -/
theorem frameIn_shift (h : ∀ k, k < 68 → v' (b + k) = v (a + k)) :
    frameIn v' b = frameIn v a := by
  have hword : ∀ i, i + 4 ≤ 68 → word v' (b + i) = word v (a + i) := by
    intro i hi
    refine word_shift (fun k hk => ?_)
    simpa [Nat.add_assoc] using h (i + k) (by omega)
  have hfirst : word v' b = word v a := hword 0 (by decide)
  simp [frameIn, hfirst, hword]

theorem frameIn_congr (h : ∀ x, a ≤ x → x < a + 68 → v' x = v x) : frameIn v' a = frameIn v a :=
  frameIn_shift (fun k hk => h (a + k) (by omega) (by omega))

/-! ## The stack -/

theorem setWords_congr (x : Nat) (h : v x = v' x) : setWords v a ws x = setWords v' a ws x := by
  induction ws generalizing v v' a with
  | nil => exact h
  | cons w ws ih =>
      have hfirst : setWord v a w x = setWord v' a w x := by simp [setWord, h]
      exact ih hfirst

/-- A word below others. -/
theorem setWords_below : setWord (setWords v (a + 4) ws) a w = setWords v a (w :: ws) := by
  funext x
  rw [setWords]
  by_cases hx : a ≤ x ∧ x < a + 4
  · rw [setWords_of_apart (v := setWord v a w) (by omega)]
    simp [setWord, hx]
  · rw [setWord_of_apart (by omega)]
    exact setWords_congr x (setWord_of_apart (by omega)).symm

/-- These words have been pushed, the last one first, on a stack that ends at `top`. -/
structure Pushed (v : Bytes.Memory) (top : U32) (ws : List U32) (s : Core) : Prop where
  mem : s.mem = setWords v (top.toNat - 4 * ws.length) ws
  esp : s.regs.esp.toNat + 4 * ws.length = top.toNat

theorem Pushed.push (h : Pushed v top ws s) (hroom : 4 * (ws.length + 1) ≤ top.toNat) :
    Pushed v top (w :: ws) (s.push w) := by
  have hesp := h.esp
  have hnat : (s.regs.esp - 4#32).toNat = s.regs.esp.toNat - 4 :=
    BitVec.toNat_sub_of_le (by rw [BitVec.le_def, BitVec.toNat_ofNat]; omega)
  constructor
  · have hbase : top.toNat - 4 * ws.length = top.toNat - 4 * (w :: ws).length + 4 := by
      rw [List.length_cons]
      omega
    have haddr : (s.regs.esp - 4#32).toNat = top.toNat - 4 * (w :: ws).length := by
      rw [List.length_cons]
      omega
    simp only [Core.push]
    rw [h.mem, haddr, hbase, setWords_below]
  · simp only [Core.push, hnat, List.length_cons]
    omega

theorem Pushed.congr {t : Core} (h : Pushed v top ws s) (hmem : t.mem = s.mem)
    (hesp : t.regs.esp = s.regs.esp) : Pushed v top ws t := by
  constructor
  · rw [hmem, h.mem]
  · rw [hesp, h.esp]

end Frames

section Entry

variable {hw : Hardware} {v : Bytes.Memory} {s : Core} {ws : List U32} {top : U32} {n : Nat}
  {h : Handler} {err : Option U32}

variable (hw) in
theorem pushal_pushed (hp : Pushed v top ws s) (hroom : 4 * (ws.length + 8) ≤ top.toNat) :
    Pushed v top ([s.regs.edi, s.regs.esi, s.regs.ebp, s.regs.esp, s.regs.ebx, s.regs.edx,
      s.regs.ecx, s.regs.eax] ++ ws) (exec hw s .pushal) := by
  have heax := hp.push (w := s.regs.eax) (by omega)
  have hecx := heax.push (w := s.regs.ecx) (by simp only [List.length_cons]; omega)
  have hedx := hecx.push (w := s.regs.edx) (by simp only [List.length_cons]; omega)
  have hebx := hedx.push (w := s.regs.ebx) (by simp only [List.length_cons]; omega)
  have hoesp := hebx.push (w := s.regs.esp) (by simp only [List.length_cons]; omega)
  have hebp := hoesp.push (w := s.regs.ebp) (by simp only [List.length_cons]; omega)
  have hesi := hebp.push (w := s.regs.esi) (by simp only [List.length_cons]; omega)
  exact hesi.push (by simp only [List.length_cons]; omega)

variable (hw) in
/-- The words that `_alltraps` pushes, of which the second is the address of the third. -/
theorem alltraps_pushed (hp : Pushed v top ws s) (hroom : 4 * (ws.length + 12) ≤ top.toNat) :
    ∃ (p₁ p₂ : U16) (oesp tf : U32), tf.toNat + 4 * (ws.length + 10) = top.toNat ∧
      Pushed v top ([hw.back, tf, s.regs.edi, s.regs.esi, s.regs.ebp, oesp, s.regs.ebx,
        s.regs.edx, s.regs.ecx, s.regs.eax, p₂ ++ s.regs.es, p₁ ++ s.regs.ds] ++ ws)
        (run hw s alltraps) := by
  have hseg : Pushed v top _ (run hw s [.pushlDs, .pushlEs]) :=
    (hp.push (by omega)).push (by simp only [List.length_cons]; omega)
  have hregs := pushal_pushed hw hseg (by simp only [List.length_cons]; omega)
  have hsel : Pushed v top _
      (run hw s [.pushlDs, .pushlEs, .pushal, .movwAx gdKd, .movwDs, .movwEs]) :=
    hregs.congr rfl rfl
  have hesp := hsel.esp
  simp only [List.length_append, List.length_cons, List.length_nil] at hesp
  refine ⟨hw.pad s, hw.pad (exec hw s .pushlDs), (run hw s [.pushlDs, .pushlEs]).regs.esp,
    (run hw s [.pushlDs, .pushlEs, .pushal, .movwAx gdKd, .movwDs, .movwEs]).regs.esp, ?_, ?_⟩
  · omega
  · exact (hsel.push (by simp; omega)).push (by simp; omega)

/-- The registers in a frame with these words. -/
theorem regsOf_words {a : Nat} (hw : ∀ i, i < 17 → word v (a + 4 * i) = ws.getD i 0) :
    regsOf (frameIn v a) =
      { edi := ws.getD 0 0
        esi := ws.getD 1 0
        ebp := ws.getD 2 0
        ebx := ws.getD 4 0
        edx := ws.getD 5 0
        ecx := ws.getD 6 0
        eax := ws.getD 7 0
        es := lowHalf (ws.getD 8 0)
        ds := lowHalf (ws.getD 9 0)
        eip := ws.getD 12 0
        cs := lowHalf (ws.getD 13 0)
        eflags := ws.getD 14 0
        esp := ws.getD 15 0
        ss := lowHalf (ws.getD 16 0) } := by
  simp only [← hw _ (by decide : 0 < 17), ← hw 1 (by decide), ← hw 2 (by decide),
    ← hw 4 (by decide), ← hw 5 (by decide), ← hw 6 (by decide), ← hw 7 (by decide),
    ← hw 8 (by decide), ← hw 9 (by decide), ← hw 12 (by decide), ← hw 13 (by decide),
    ← hw 14 (by decide), ← hw 15 (by decide), ← hw 16 (by decide)]
  rfl

/-- After a trap with these registers: the argument of `trap` is the address of a frame that
has them all, and nothing but the stack was written. -/
structure Entered (v : Bytes.Memory) (top : U32) (n : Nat) (err : Option U32) (r : Regs)
    (s : Core) : Prop where
  regs : regsOf (frameIn s.mem (top.toNat - 68)) = r
  trapno : (frameIn s.mem (top.toNat - 68)).tfTrapno = BitVec.ofNat 32 n
  err : (frameIn s.mem (top.toNat - 68)).tfErr = err.getD 0#32
  arg : (word s.mem (s.regs.esp.toNat + 4)).toNat + 68 = top.toNat
  outside : ∀ x, x < top.toNat - 76 ∨ top.toNat ≤ x → s.mem x = v x

variable (hw s) in
/-- What the processor and the entry point push. -/
theorem gate_pushed (hn : (n, h) ∈ idt) (herr : err.isSome ↔ PushesError n)
    (htop : 28 ≤ top.toNat) : ∃ p₃ p₄ : U16,
      Pushed s.mem top [BitVec.ofNat 32 n, err.getD 0#32, s.regs.eip, p₃ ++ s.regs.cs,
        s.regs.eflags, s.regs.esp, p₄ ++ s.regs.ss]
        (run hw (interrupt hw top err s) (h.code n)) := by
  obtain ⟨s₀, hs₀⟩ : ∃ s₀ : Core, s₀ = { s with regs := { s.regs with
    esp := top, ss := gdKd, cs := gdKt, eflags := hw.gateFlags s.regs.eflags } } := ⟨_, rfl⟩
  have hempty : Pushed s.mem top [] s₀ := by
    constructor <;> simp [hs₀, setWords]
  obtain ⟨p₄, hss⟩ : ∃ p, p = hw.pad s₀ := ⟨_, rfl⟩
  have hesp := (hempty.push (w := p₄ ++ s.regs.ss) (by simp; omega)).push (w := s.regs.esp)
    (by simp; omega)
  have hflags := hesp.push (w := s.regs.eflags) (by simp; omega)
  obtain ⟨p₃, hcs⟩ : ∃ p, p = hw.pad (((s₀.push (p₄ ++ s.regs.ss)).push s.regs.esp).push
    s.regs.eflags) := ⟨_, rfl⟩
  have heip := (hflags.push (w := p₃ ++ s.regs.cs) (by simp; omega)).push (w := s.regs.eip)
    (by simp; omega)
  have hec : h = .ec ↔ err.isSome := (idt_handlers _ hn).trans herr.symm
  refine ⟨p₃, p₄, ?_⟩
  cases err with
  | none =>
      have hh : h = .noec := by cases h <;> simp at hec ⊢
      subst hh hs₀ hss hcs
      exact (heip.push (by simp; omega)).push (by simp; omega)
  | some e =>
      have hh : h = .ec := by simpa using hec
      subst hh hs₀ hss hcs
      exact (heip.push (by simp; omega)).push (by simp; omega)

/-- The general registers are not changed before `_alltraps`. -/
theorem gate_regs : (run hw (interrupt hw top err s) (h.code n)).regs =
    { s.regs with
      esp := (run hw (interrupt hw top err s) (h.code n)).regs.esp
      ss := gdKd
      cs := gdKt
      eflags := hw.gateFlags s.regs.eflags } := by
  cases err <;> cases h <;>
    simp [run, Handler.code, interrupt, exec, Core.push, Core.pushSeg]

theorem enter_frame (hn : (n, h) ∈ idt) (herr : err.isSome ↔ PushesError n)
    (htop : 76 ≤ top.toNat) : Entered s.mem top n err s.regs (enter hw top n h err s) := by
  obtain ⟨p₃, p₄, hgate⟩ := gate_pushed hw s hn herr (Nat.le_trans (by decide) htop)
  obtain ⟨p₁, p₂, oesp, tf, htf, hpushed⟩ := alltraps_pushed hw hgate (by simp; omega)
  have hrun : run hw (run hw (interrupt hw top err s) (h.code n)) alltraps =
      enter hw top n h err s := by
    simp [enter, run]
  rw [hrun, gate_regs] at hpushed
  generalize enter hw top n h err s = t at hpushed
  obtain ⟨ws, hws⟩ : ∃ ws, ws = [hw.back, tf, s.regs.edi, s.regs.esi, s.regs.ebp, oesp,
      s.regs.ebx, s.regs.edx, s.regs.ecx, s.regs.eax, p₂ ++ s.regs.es, p₁ ++ s.regs.ds,
      BitVec.ofNat 32 n, err.getD 0#32, s.regs.eip, p₃ ++ s.regs.cs, s.regs.eflags, s.regs.esp,
      p₄ ++ s.regs.ss] := ⟨_, rfl⟩
  replace hpushed : Pushed s.mem top ws t := hws ▸ hpushed
  have hlength : ws.length = 19 := by rw [hws]; rfl
  obtain ⟨hmem, hesp⟩ := hpushed
  rw [hlength] at hmem hesp
  have hword : ∀ i, i < 19 → word t.mem (top.toNat - 76 + 4 * i) = ws.getD i 0 := by
    intro i hi
    rw [hmem]
    exact word_setWords (by omega)
  have hframe : ∀ i, i < 17 → word t.mem (top.toNat - 68 + 4 * i) = (ws.drop 2).getD i 0 := by
    intro i hi
    have haddr : top.toNat - 68 + 4 * i = top.toNat - 76 + 4 * (2 + i) := by omega
    rw [haddr, hword (2 + i) (by omega)]
    simp [List.getD]
  constructor
  · rw [regsOf_words hframe]
    simp [hws, lowHalf_append]
  · have htrapno := hframe 10 (by decide)
    simpa [hws, frameIn] using htrapno
  · have hcode := hframe 11 (by decide)
    simpa [hws, frameIn] using hcode
  · have harg := hword 1 (by decide)
    have haddr : t.regs.esp.toNat + 4 = top.toNat - 76 + 4 * 1 := by omega
    rw [haddr, harg]
    simp only [hws, List.length_cons, List.length_nil] at htf ⊢
    exact htf
  · intro x hx
    rw [hmem]
    exact setWords_of_apart (by omega)

end Entry

section Exit

variable {hw : Hardware} {s : Core} {tf : U32}

/-- `env_pop_tf` loads every register from the frame, if that is one of user mode. -/
theorem envPopTf_regs (htf : tf.toNat + 68 ≤ 2 ^ 32) (huser : (frameIn s.mem tf.toNat).FromUser) :
    envPopTf hw tf s = { s with regs := regsOf (frameIn s.mem tf.toNat) } := by
  have hword : ∀ n, n < 68 →
      word s.mem (tf + BitVec.ofNat 32 n).toNat = word s.mem (tf.toNat + n) := by
    intro n hn
    rw [BitVec.toNat_add, BitVec.toNat_ofNat, Nat.mod_eq_of_lt (a := n) (by omega),
      Nat.mod_eq_of_lt (by omega)]
  have hcs : lowHalf (word s.mem (tf.toNat + 52)) &&& 3#16 = 3#16 := huser
  simp only [envPopTf, run, List.foldl_cons, List.foldl_nil, exec, Core.load, BitVec.add_assoc,
    BitVec.ofNat_add_ofNat, Nat.reduceAdd, hword 4 (by decide), hword 8 (by decide),
    hword 16 (by decide), hword 20 (by decide), hword 24 (by decide), hword 28 (by decide),
    hword 32 (by decide), hword 36 (by decide), hword 48 (by decide), hword 52 (by decide),
    hword 56 (by decide), hword 60 (by decide), hword 64 (by decide), hcs, if_true]
  rfl

end Exit

end TrapFrames

end Jos

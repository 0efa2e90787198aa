import Jos.ExceptionStack
import Jos.Lib.Bytes

/-!
# The page fault upcall, `lib/pfentry.S`

When an environment faults, `page_fault_handler` pushes a `struct UTrapframe` on the exception
stack and lets the environment go on at `_pgfault_upcall`, which calls the handler in C and then
goes back to where the fault was.  On the way it stores the trap-time `eip` below the trap-time
`esp`, and takes everything else from the frame.

`Run` has the faults that end: a fault, with the instructions of `_pgfault_upcall` and the handler,
each of which may fault again.  A handler is any code that keeps to the part of the exception
stack below its frame and leaves alone what is protected.  The page below the exception stack is
not mapped, so that a push cannot go there.
-/

namespace Jos

namespace Upcall

open Bytes

/-- What a computation of an environment consists of. -/
@[ext]
structure Cpu where
  edi : U32
  esi : U32
  ebp : U32
  ebx : U32
  edx : U32
  ecx : U32
  eax : U32
  eip : U32
  eflags : U32
  esp : U32
  mem : Bytes.Memory

/-- The instructions of `_pgfault_upcall`. -/
inductive Insn where
  /-- `pushl %esp` -/
  | pushlEsp
  /-- `movl _pgfault_handler, %eax` -/
  | movlHandlerEax
  /-- `call *%eax` -/
  | callEax
  /-- `addl $n, %esp` -/
  | addlEsp (n : U32)
  /-- `movl n(%esp), %eax` -/
  | movlEax (n : U32)
  /-- `movl n(%esp), %ecx` -/
  | movlEcx (n : U32)
  /-- `movl %ecx, -4(%eax)` -/
  | movlEcxEax
  | popal
  | popfl
  /-- `popl %esp` -/
  | poplEsp
  /-- `lea -4(%esp), %esp` -/
  | leaEsp
  | ret
deriving DecidableEq

/-- `_pgfault_upcall`. -/
def code : List Insn :=
  [.pushlEsp, .movlHandlerEax, .callEax, .addlEsp 4#32, .addlEsp 8#32, .movlEax 40#32,
    .movlEcx 32#32, .movlEcxEax, .popal, .addlEsp 4#32, .popfl, .poplEsp, .leaEsp, .ret]

/-- Where the code and `_pgfault_handler` are, and what is done with flags: those that `popfl`
changes, as the privilege level has it, and what they are after an addition. -/
structure Placement where
  addr : Nat → U32
  handler : U32
  userFlags : U32
  addl : U32 → U32 → U32 → U32
  apart : ∀ j k, j < 14 → k < 14 → addr j = addr k → j = k
  system : ∀ f a b, addl f a b &&& ~~~userFlags = f &&& ~~~userFlags

/-- The word that an address in a register refers to. -/
def Cpu.load (s : Cpu) (a : U32) : U32 := word s.mem a.toNat

def Cpu.store (s : Cpu) (a w : U32) : Cpu := { s with mem := setWord s.mem a.toNat w }

/-- An instruction, but for `eip`, which is all that `call` and `ret` are about. -/
def exec (p : Placement) (s : Cpu) : Insn → Cpu
  | .pushlEsp => { s.store (s.esp - 4#32) s.esp with esp := s.esp - 4#32 }
  | .movlHandlerEax => { s with eax := s.load p.handler }
  | .callEax => s
  | .addlEsp n => { s with esp := s.esp + n, eflags := p.addl s.eflags s.esp n }
  | .movlEax n => { s with eax := s.load (s.esp + n) }
  | .movlEcx n => { s with ecx := s.load (s.esp + n) }
  | .movlEcxEax => s.store (s.eax - 4#32) s.ecx
  | .popal =>
      { s with
        edi := s.load s.esp
        esi := s.load (s.esp + 4#32)
        ebp := s.load (s.esp + 8#32)
        ebx := s.load (s.esp + 16#32)
        edx := s.load (s.esp + 20#32)
        ecx := s.load (s.esp + 24#32)
        eax := s.load (s.esp + 28#32)
        esp := s.esp + 32#32 }
  | .popfl =>
      { s with
        eflags := (s.load s.esp &&& p.userFlags) ||| (s.eflags &&& ~~~p.userFlags)
        esp := s.esp + 4#32 }
  | .poplEsp => { s with esp := s.load s.esp }
  | .leaEsp => { s with esp := s.esp - 4#32 }
  | .ret => s

/-- `call *%eax`, with this return address. -/
def Cpu.call (s : Cpu) (back : U32) : Cpu :=
  { s.store (s.esp - 4#32) back with esp := s.esp - 4#32, eip := s.eax }

/-- `ret`. -/
def Cpu.ret (s : Cpu) : Cpu := { s with eip := s.load s.esp, esp := s.esp + 4#32 }

/-- The trap frame of a fault. -/
structure Saves (s : Cpu) (tf : Trapframe) : Prop where
  edi : tf.tfRegs.regEdi = s.edi
  esi : tf.tfRegs.regEsi = s.esi
  ebp : tf.tfRegs.regEbp = s.ebp
  ebx : tf.tfRegs.regEbx = s.ebx
  edx : tf.tfRegs.regEdx = s.edx
  ecx : tf.tfRegs.regEcx = s.ecx
  eax : tf.tfRegs.regEax = s.eax
  eip : tf.tfEip = s.eip
  eflags : tf.tfEflags = s.eflags
  esp : tf.tfEsp = s.esp

/-- `page_fault_handler`, for an environment that has an upcall and room for a frame. -/
def deliver (p : Placement) (faultVa : U32) (tf : Trapframe) (s : Cpu) : Cpu :=
  { s with
    mem := setWords s.mem (frameAt tf.tfEsp).toNat (utrapframeWords faultVa tf)
    eip := p.addr 0
    esp := frameAt tf.tfEsp }

/-- The exception stack. -/
def OnPage (x : Nat) : Prop := uxstackbottom.toNat ≤ x ∧ x < uxstacktop.toNat

/-- The word below a stack pointer. -/
def Below (e : U32) (x : Nat) : Prop := e.toNat - 4 ≤ x ∧ x < e.toNat

/-- A stack below the exception stack. -/
def Normal (e : U32) : Prop := 4 ≤ e.toNat ∧ e.toNat < uxstackbottom.toNat

/-- Strictly inside the exception stack, with room for a frame. -/
def Inside (e : U32) : Prop := uxstackbottom.toNat + 56 ≤ e.toNat ∧ e.toNat < uxstacktop.toNat

/-- What a handler leaves alone: what is protected already, the word below the trap-time `esp`, and
the exception stack from its frame on. -/
def guarded (kept : Set Nat) (e : U32) : Set Nat :=
  {x | x ∈ kept ∨ Below e x ∨ ((frameAt e).toNat ≤ x ∧ x < uxstacktop.toNat)}

/-- A step of the code of a handler, in which it may do what it wants with the registers. -/
structure OwnStep (p : Placement) (kept : Set Nat) (s t : Cpu) : Prop where
  mem : ∀ x, x ∈ kept → t.mem x = s.mem x
  system : t.eflags &&& ~~~p.userFlags = s.eflags &&& ~~~p.userFlags

/-- The stacks that are interrupted by a fault: what handlers leave alone elsewhere, and the
exception stack from the trap-time `esp` on, if this is there. -/
def interrupted (kept : Set Nat) (e : U32) : Set Nat :=
  {x | (x ∈ kept ∧ ¬ OnPage x) ∨ (Inside e ∧ e.toNat ≤ x ∧ x < uxstacktop.toNat)}

/-- The computation goes on where it was interrupted, with what is in `es` for the trap-time `esp`
of this fault and of those while it was handled. -/
structure Resumes (kept : Set Nat) (es : List U32) (s t : Cpu) : Prop where
  same : t = { s with mem := t.mem }
  stack : ∀ x, x ∈ interrupted kept s.esp → t.mem x ≠ s.mem x → ∃ e, e ∈ es ∧ Below e x

/-- What is run. -/
inductive Mode where
  /-- a fault, up to where the computation is resumed -/
  | fault
  /-- instructions of `_pgfault_upcall` -/
  | upcall
  /-- the handler, with its stack from there on downwards -/
  | handler (top : U32)

/-- What is run with faults at these stack pointers.  The addresses in the set are left alone by
handlers. -/
inductive Run (p : Placement) : Mode → Set Nat → List U32 → Cpu → Cpu → Prop
  | fault {kept es s t faultVa tf} (hplace : Normal s.esp ∨ Inside s.esp) (hsaves : Saves s tf)
      (hrun : Run p .upcall (guarded kept s.esp) es (deliver p faultVa tf s) t)
      (hret : t.eip = p.addr 13) : Run p .fault kept (s.esp :: es) s t.ret
  | stop {kept s} : Run p .upcall kept [] s s
  | insn {kept es s t k i} (hcode : code[k]? = some i) (heip : s.eip = p.addr k)
      (hplain : i ≠ .callEax ∧ i ≠ .ret)
      (hroom : i = .pushlEsp → uxstackbottom.toNat + 4 ≤ s.esp.toNat)
      (hrest : Run p .upcall kept es { exec p s i with eip := p.addr (k + 1) } t) :
      Run p .upcall kept es s t
  /-- an instruction faults and is run again -/
  | again {kept es es' s s' t k i} (hcode : code[k]? = some i) (heip : s.eip = p.addr k)
      (haccess : i ≠ .leaEsp) (hfault : Run p .fault kept es s s')
      (hrest : Run p .upcall kept es' s' t) : Run p .upcall kept (es ++ es') s t
  | call {kept es es' s s' t} (heip : s.eip = p.addr 2)
      (hroom : uxstackbottom.toNat + 4 ≤ s.esp.toNat)
      (hhandler : Run p (.handler (s.esp - 4#32)) kept es (s.call (p.addr 3)) s')
      (hback : s'.eip = p.addr 3) (hesp : s'.esp = s.esp)
      (hrest : Run p .upcall kept es' s' t) : Run p .upcall kept (es ++ es') s t
  | done {kept top s} : Run p (.handler top) kept [] s s
  | own {kept top es s s' t} (hown : OwnStep p kept s s')
      (hrest : Run p (.handler top) kept es s' t) : Run p (.handler top) kept es s t
  | nested {kept top es es' s s' t} (habove : uxstackbottom.toNat ≤ s.esp.toNat)
      (hbelow : s.esp.toNat ≤ top.toNat) (hfault : Run p .fault kept es s s')
      (hrest : Run p (.handler top) kept es' s' t) : Run p (.handler top) kept (es ++ es') s t

/-! ## Where things are -/

/-- What may change while a fault is handled, with faults at these stack pointers: the exception
stack below the trap-time `esp`, and, if this is elsewhere, the words below stack pointers. -/
def Changed (e : U32) (es : List U32) (x : Nat) : Prop :=
  (OnPage x ∧ (Inside e → x < e.toNat)) ∨ (Normal e ∧ ∃ e', e' ∈ es ∧ Below e' x)

theorem Changed.mono {e : U32} {es es' : List U32} {x : Nat} (h : Changed e es x) :
    Changed e (es ++ es') x := by
  rcases h with h | ⟨hnormal, e', he', hbelow⟩
  · exact Or.inl h
  · exact Or.inr ⟨hnormal, e', List.mem_append_left _ he', hbelow⟩

section Bounds

variable {e : U32}

theorem inside_iff : Inside e ↔ 0xEEBFF000 + 56 ≤ e.toNat ∧ e.toNat < 0xEEC00000 := by
  unfold Inside
  rw [uxstackbottom_toNat, uxstacktop_toNat]

theorem normal_iff : Normal e ↔ 4 ≤ e.toNat ∧ e.toNat < 0xEEBFF000 := by
  unfold Normal
  rw [uxstackbottom_toNat]

theorem onPage_iff {x : Nat} : OnPage x ↔ 0xEEBFF000 ≤ x ∧ x < 0xEEC00000 := by
  unfold OnPage
  rw [uxstackbottom_toNat, uxstacktop_toNat]

theorem frameAt_inside (h : Inside e) : (frameAt e).toNat + 56 = e.toNat := by
  rw [inside_iff] at h
  rw [frameAt_above]
  · omega
  · rw [BitVec.lt_def, uxstackbottom_toNat]
    omega
  · rw [BitVec.lt_def, uxstacktop_toNat]
    exact h.2

theorem frameAt_normal (h : Normal e) : (frameAt e).toNat + 56 = 0xEEC00000 := by
  rw [normal_iff] at h
  rw [frameAt_top]
  rintro ⟨hlo, -⟩
  rw [BitVec.lt_def, uxstackbottom_toNat] at hlo
  omega

/-- A frame and the word above it are on the exception stack, below `esp` if that is there too. -/
theorem frameAt_bounds (h : Normal e ∨ Inside e) :
    0xEEBFF000 ≤ (frameAt e).toNat ∧ (frameAt e).toNat + 56 ≤ 0xEEC00000 := by
  rcases h with h | h
  · have htop := frameAt_normal h
    omega
  · have hbase := frameAt_inside h
    rw [inside_iff] at h
    omega

theorem not_normal (h : Inside e) : ¬ Normal e := by
  rw [inside_iff] at h
  rw [normal_iff]
  omega

theorem changed_inside (h : Inside e) {es : List U32} {x : Nat} :
    Changed e es x ↔ OnPage x ∧ x < e.toNat := by
  constructor
  · rintro (⟨hon, hlt⟩ | ⟨hnormal, -⟩)
    · exact ⟨hon, hlt h⟩
    · exact absurd hnormal (not_normal h)
  · rintro ⟨hon, hlt⟩
    exact Or.inl ⟨hon, fun _ => hlt⟩

theorem changed_normal (h : Normal e) {es : List U32} {x : Nat} :
    Changed e es x ↔ OnPage x ∨ ∃ e', e' ∈ es ∧ Below e' x := by
  constructor
  · rintro (⟨hon, -⟩ | ⟨-, hword⟩)
    · exact Or.inl hon
    · exact Or.inr hword
  · rintro (hon | hword)
    · exact Or.inl ⟨hon, fun hinside => absurd h (not_normal hinside)⟩
    · exact Or.inr ⟨h, hword⟩

end Bounds

/-! ## What holds while a fault is handled -/

/-- A fault at `c` is being handled, with a frame of these words of which the part from `lo` on is
still needed. -/
structure Live (p : Placement) (c : Cpu) (ws : List U32) (kept : Set Nat) (es : List U32) (lo : Nat)
    (s : Cpu) : Prop where
  frame : ∀ i, i < 13 → lo ≤ 4 * i → word s.mem ((frameAt c.esp).toNat + 4 * i) = ws.getD i 0
  mem : ∀ x, x ∈ guarded kept c.esp → ¬ Changed c.esp es x → s.mem x = c.mem x
  system : s.eflags &&& ~~~p.userFlags = c.eflags &&& ~~~p.userFlags
  nest : ∀ e, e ∈ es → Inside e ∨ (Normal c.esp ∧ Normal e ∧ e.toNat ≤ c.esp.toNat)
  head : c.esp ∈ es

/-- A fault at `s` has been handled. -/
structure Handled (kept : Set Nat) (es : List U32) (s t : Cpu) : Prop where
  same : t = { s with mem := t.mem }
  mem : ∀ x, x ∈ guarded kept s.esp → ¬ Changed s.esp es x → t.mem x = s.mem x
  nest : ∀ e, e ∈ es → Inside e ∨ (Normal s.esp ∧ Normal e ∧ e.toNat ≤ s.esp.toNat)

namespace Live

variable {p : Placement} {c s t : Cpu} {ws : List U32} {kept : Set Nat} {es es' : List U32}
  {lo lo' : Nat}

/-- What is needed gets less. -/
theorem mono (h : Live p c ws kept es lo s) (hle : lo ≤ lo') : Live p c ws kept es lo' s :=
  { h with frame := fun i hi hlo => h.frame i hi (Nat.le_trans hle hlo) }

/-- Registers do not matter, but for the flags. -/
theorem regs (h : Live p c ws kept es lo s) (hmem : t.mem = s.mem)
    (hsystem : t.eflags &&& ~~~p.userFlags = s.eflags &&& ~~~p.userFlags) :
    Live p c ws kept es lo t where
  frame := by
    rw [hmem]
    exact h.frame
  mem := by
    rw [hmem]
    exact h.mem
  system := hsystem.trans h.system
  nest := h.nest
  head := h.head

/-- A word is stored where things may change, and not into the frame. -/
theorem store (h : Live p c ws kept es lo s) {a w : U32}
    (hframe : ∀ i, i < 13 → lo ≤ 4 * i → (frameAt c.esp).toNat + 4 * i + 4 ≤ a.toNat ∨
      a.toNat + 4 ≤ (frameAt c.esp).toNat + 4 * i)
    (hchanged : ∀ x, a.toNat ≤ x → x < a.toNat + 4 → Changed c.esp es x) :
    Live p c ws kept es lo (s.store a w) where
  frame i hi hlo := (word_setWord_of_apart (hframe i hi hlo)).trans (h.frame i hi hlo)
  mem x hx hnot := by
    have hapart : x < a.toNat ∨ a.toNat + 4 ≤ x := by
      by_contra hin
      exact hnot (hchanged x (by omega) (by omega))
    exact (setWord_of_apart hapart).trans (h.mem x hx hnot)
  system := h.system
  nest := h.nest
  head := h.head

/-- The stack below the frame. -/
theorem push (h : Live p c ws kept es lo s) (hplace : Normal c.esp ∨ Inside c.esp) {a w : U32}
    (hroom : 0xEEBFF000 ≤ a.toNat) (hbelow : a.toNat + 4 ≤ (frameAt c.esp).toNat) :
    Live p c ws kept es lo (s.store a w) := by
  have hbounds := frameAt_bounds hplace
  refine h.store (fun i hi hlo => Or.inr (by omega))
    (fun x hle hlt => Or.inl ⟨?_, fun hinside => ?_⟩)
  · rw [onPage_iff]
    omega
  · have hbase := frameAt_inside hinside
    omega

/-- A handler leaves it alone. -/
theorem ownStep (h : Live p c ws kept es 0 s) (hplace : Normal c.esp ∨ Inside c.esp)
    (hown : OwnStep p (guarded kept c.esp) s t) : Live p c ws kept es 0 t where
  frame i hi hlo := by
    have hbounds := frameAt_bounds hplace
    refine (word_congr (fun x hle hlt => hown.mem x (Or.inr (Or.inr ⟨by omega, ?_⟩)))).trans
      (h.frame i hi hlo)
    rw [uxstacktop_toNat]
    omega
  mem x hx hnot := (hown.mem x hx).trans (h.mem x hx hnot)
  system := hown.system.trans h.system
  nest := h.nest
  head := h.head

/-- So does another fault on the exception stack, below what is still needed. -/
theorem fault (h : Live p c ws kept es lo s) (hplace : Normal c.esp ∨ Inside c.esp)
    (hinside : Inside s.esp) (hesp : s.esp.toNat ≤ (frameAt c.esp).toNat + lo) (hlo : lo ≤ 52)
    (hhandled : Handled (guarded kept c.esp) es' s t) : Live p c ws kept (es ++ es') lo t where
  frame i hi hge := by
    have hbounds := frameAt_bounds hplace
    have hkept : ∀ x, (frameAt c.esp).toNat + 4 * i ≤ x → x < (frameAt c.esp).toNat + 4 * i + 4 →
        x ∈ guarded kept c.esp := by
      refine fun x hle hlt => Or.inr (Or.inr ⟨by omega, ?_⟩)
      rw [uxstacktop_toNat]
      omega
    refine (word_congr (fun x hle hlt => hhandled.mem x (Or.inl (hkept x hle hlt)) ?_)).trans
      (h.frame i hi hge)
    rw [changed_inside hinside]
    omega
  mem x hx hnot := by
    refine (hhandled.mem x (Or.inl hx) (fun hchanged => hnot ?_)).trans
      (h.mem x hx (fun hchanged => hnot hchanged.mono))
    obtain ⟨hon, hlt⟩ := (changed_inside hinside).mp hchanged
    refine Or.inl ⟨hon, fun hin => ?_⟩
    have hbase := frameAt_inside hin
    omega
  system := by
    rw [hhandled.same]
    exact h.system
  nest e he := by
    rcases List.mem_append.mp he with he | he
    · exact h.nest e he
    · rcases hhandled.nest e he with hin | ⟨hnormal, -⟩
      · exact Or.inl hin
      · exact absurd hnormal (not_normal hinside)
  head := List.mem_append_left _ h.head

/-- And a fault of the last instruction, which is on the trap-time stack again. -/
theorem faultBelow (h : Live p c ws kept es 52 s) (hplace : Normal c.esp ∨ Inside c.esp)
    (hplace' : Normal s.esp ∨ Inside s.esp) (hesp : s.esp.toNat + 4 = c.esp.toNat)
    (hhandled : Handled (guarded kept c.esp) es' s t) :
    Live p c ws kept (es ++ es') 52 t ∧
      word t.mem (c.esp.toNat - 4) = word s.mem (c.esp.toNat - 4) := by
  have hword : (∀ x, Below c.esp x → ¬ Changed s.esp es' x) →
      word t.mem (c.esp.toNat - 4) = word s.mem (c.esp.toNat - 4) := by
    intro hnot
    refine word_congr (fun x hle hlt => ?_)
    have hbelow : Below c.esp x := ⟨hle, by omega⟩
    exact hhandled.mem x (Or.inl (Or.inr (Or.inl hbelow))) (hnot x hbelow)
  rcases hplace with hnormal | hinside
  · have hnormal' : Normal s.esp := by
      refine hplace'.resolve_right (fun hin => ?_)
      rw [inside_iff] at hin
      rw [normal_iff] at hnormal
      omega
    refine ⟨⟨fun i hi hge => by omega, fun x hx hnot => ?_, ?_, fun e he => ?_, ?_⟩,
      hword (fun x hbelow hchanged => ?_)⟩
    · refine (hhandled.mem x (Or.inl hx) (fun hchanged => hnot ?_)).trans
        (h.mem x hx (fun hchanged => hnot hchanged.mono))
      rw [changed_normal hnormal'] at hchanged
      rw [changed_normal hnormal]
      rcases hchanged with hon | ⟨e', he', hbelow⟩
      · exact Or.inl hon
      · exact Or.inr ⟨e', List.mem_append_right _ he', hbelow⟩
    · rw [hhandled.same]
      exact h.system
    · rcases List.mem_append.mp he with he | he
      · exact h.nest e he
      · rcases hhandled.nest e he with hin | ⟨-, hnormale, hle⟩
        · exact Or.inl hin
        · exact Or.inr ⟨hnormal, hnormale, by omega⟩
    · exact List.mem_append_left _ h.head
    · obtain ⟨hle, hlt⟩ := hbelow
      rw [normal_iff] at hnormal
      rcases (changed_normal hnormal').mp hchanged with hon | ⟨e', he', hle', hlt'⟩
      · rw [onPage_iff] at hon
        omega
      · rcases hhandled.nest e' he' with hin | ⟨-, -, hbound⟩
        · rw [inside_iff] at hin
          omega
        · omega
  · have hinside' : Inside s.esp := by
      refine hplace'.resolve_left (fun hnormal => ?_)
      rw [inside_iff] at hinside
      rw [normal_iff] at hnormal
      omega
    have hbase := frameAt_inside hinside
    refine ⟨h.fault (Or.inr hinside) hinside' (by omega) (Nat.le_refl 52) hhandled,
      hword (fun x hbelow hchanged => ?_)⟩
    obtain ⟨hle, hlt⟩ := hbelow
    have hlow := ((changed_inside hinside').mp hchanged).2
    omega

end Live

/-! ## The instructions -/

/-- Where `esp` is before instruction `k`. -/
def espAt (c : Cpu) : Nat → Nat
  | 0 | 4 => (frameAt c.esp).toNat
  | 1 | 2 | 3 => (frameAt c.esp).toNat - 4
  | 5 | 6 | 7 | 8 => (frameAt c.esp).toNat + 8
  | 9 => (frameAt c.esp).toNat + 40
  | 10 => (frameAt c.esp).toNat + 44
  | 11 => (frameAt c.esp).toNat + 48
  | 12 => c.esp.toNat
  | _ => c.esp.toNat - 4

/-- Which part of the frame is still needed then. -/
def needed : Nat → Nat
  | 0 | 1 | 2 | 3 | 4 => 0
  | 5 | 6 | 7 | 8 => 8
  | 9 => 40
  | 10 => 44
  | 11 => 48
  | _ => 52

/-- The general registers. -/
structure SameRegs (s c : Cpu) : Prop where
  edi : s.edi = c.edi
  esi : s.esi = c.esi
  ebp : s.ebp = c.ebp
  ebx : s.ebx = c.ebx
  edx : s.edx = c.edx
  ecx : s.ecx = c.ecx
  eax : s.eax = c.eax

/-- What holds before instruction `k`. -/
structure At (p : Placement) (c : Cpu) (ws : List U32) (kept : Set Nat) (es : List U32) (k : Nat)
    (s : Cpu) : Prop where
  live : Live p c ws kept es (needed k) s
  esp : s.esp.toNat = espAt c k
  room : k ≤ 3 → 0xEEBFF000 ≤ s.esp.toNat
  eax : k = 6 ∨ k = 7 → s.eax = c.esp
  ecx : k = 7 → s.ecx = c.eip
  pushed : 8 ≤ k → word s.mem (c.esp.toNat - 4) = c.eip
  regs : 9 ≤ k → SameRegs s c
  eflags : 11 ≤ k → s.eflags = c.eflags

section Instructions

variable {p : Placement} {c s t : Cpu} {faultVa : U32} {tf : Trapframe} {kept : Set Nat}
  {es es' : List U32} {k : Nat}

/-- A word of the frame. -/
theorem Live.load {ws : List U32} {lo : Nat} (h : Live p c ws kept es lo s) {a : U32} {i : Nat}
    (haddr : a.toNat = (frameAt c.esp).toNat + 4 * i) (hi : i < 13) (hlo : lo ≤ 4 * i) :
    s.load a = ws.getD i 0 := by
  unfold Cpu.load
  rw [haddr]
  exact h.frame i hi hlo

/-- The stack pointer goes up. -/
theorem toNat_add_of {a n : U32} {m : Nat} (h : a.toNat + n.toNat = m) (hlt : m < 2 ^ 32) :
    (a + n).toNat = m := by
  rw [BitVec.toNat_add]
  omega

theorem toNat_sub_of {a n : U32} {m : Nat} (h : a.toNat = m + n.toNat) : (a - n).toNat = m := by
  have hlt := a.isLt
  rw [BitVec.toNat_sub_of_le (by rw [BitVec.le_def]; omega)]
  omega

/-- The instructions in front of the call. -/
theorem At.pushlEsp {ws : List U32} (h : At p c ws kept es 0 s)
    (hplace : Normal c.esp ∨ Inside c.esp) (hroom : uxstackbottom.toNat + 4 ≤ s.esp.toNat)
    (x : U32) :
    At p c ws kept es 1 { exec p s .pushlEsp with eip := x } := by
  have hesp : s.esp.toNat = (frameAt c.esp).toNat := h.esp
  rw [uxstackbottom_toNat] at hroom
  have hsub : (s.esp - 4#32).toNat = (frameAt c.esp).toNat - 4 := toNat_sub_of (by
    show s.esp.toNat = _ + 4
    omega)
  have hlive := h.live.push hplace (a := s.esp - 4#32) (w := s.esp) (by omega) (by omega)
  have hge : 0xEEBFF000 ≤ (s.esp - 4#32).toNat := by omega
  exact ⟨hlive.regs rfl rfl, hsub, fun _ => hge, by omega, by omega, by omega, by omega, by omega⟩

theorem At.movlHandlerEax {ws : List U32} (h : At p c ws kept es 1 s) (x : U32) :
    At p c ws kept es 2 { exec p s .movlHandlerEax with eip := x } :=
  ⟨h.live.regs rfl rfl, h.esp, fun _ => h.room (by decide), by omega, by omega, by omega, by omega,
    by omega⟩

theorem At.addlArg {ws : List U32} (h : At p c ws kept es 3 s)
    (hplace : Normal c.esp ∨ Inside c.esp) (x : U32) :
    At p c ws kept es 4 { exec p s (.addlEsp 4#32) with eip := x } := by
  have hbounds := frameAt_bounds hplace
  have hesp : s.esp.toNat = (frameAt c.esp).toNat - 4 := h.esp
  have hadd : (s.esp + 4#32).toNat = (frameAt c.esp).toNat := toNat_add_of (by
    show s.esp.toNat + 4 = _
    omega) (by omega)
  exact ⟨h.live.regs rfl (p.system _ _ _), hadd, by omega, by omega, by omega, by omega, by omega,
    by omega⟩

theorem At.addlErr {ws : List U32} (h : At p c ws kept es 4 s)
    (hplace : Normal c.esp ∨ Inside c.esp) (x : U32) :
    At p c ws kept es 5 { exec p s (.addlEsp 8#32) with eip := x } := by
  have hbounds := frameAt_bounds hplace
  have hesp : s.esp.toNat = (frameAt c.esp).toNat := h.esp
  have hadd : (s.esp + 8#32).toNat = (frameAt c.esp).toNat + 8 := toNat_add_of (by
    show s.esp.toNat + 8 = _
    omega) (by omega)
  have hlive : Live p c ws kept es 8 s := h.live.mono (Nat.zero_le 8)
  exact ⟨hlive.regs rfl (p.system _ _ _), hadd, by omega, by omega, by omega, by omega, by omega,
    by omega⟩

theorem At.movlEax (h : At p c (utrapframeWords faultVa tf) kept es 5 s) (hsaves : Saves c tf)
    (hplace : Normal c.esp ∨ Inside c.esp) (x : U32) :
    At p c (utrapframeWords faultVa tf) kept es 6 { exec p s (.movlEax 40#32) with eip := x } := by
  have hbounds := frameAt_bounds hplace
  have hesp : s.esp.toNat = (frameAt c.esp).toNat + 8 := h.esp
  have haddr : (s.esp + 40#32).toNat = (frameAt c.esp).toNat + 4 * 12 := toNat_add_of (by
    show s.esp.toNat + 40 = _
    omega) (by omega)
  have hload : s.load (s.esp + 40#32) = c.esp :=
    (h.live.load haddr (by decide) (by decide)).trans hsaves.esp
  exact ⟨h.live.regs rfl rfl, hesp, by omega, fun _ => hload, by omega, by omega, by omega,
    by omega⟩

theorem At.movlEcx (h : At p c (utrapframeWords faultVa tf) kept es 6 s) (hsaves : Saves c tf)
    (hplace : Normal c.esp ∨ Inside c.esp) (x : U32) :
    At p c (utrapframeWords faultVa tf) kept es 7 { exec p s (.movlEcx 32#32) with eip := x } := by
  have hbounds := frameAt_bounds hplace
  have hesp : s.esp.toNat = (frameAt c.esp).toNat + 8 := h.esp
  have haddr : (s.esp + 32#32).toNat = (frameAt c.esp).toNat + 4 * 10 := toNat_add_of (by
    show s.esp.toNat + 32 = _
    omega) (by omega)
  have hload : s.load (s.esp + 32#32) = c.eip :=
    (h.live.load haddr (by decide) (by decide)).trans hsaves.eip
  exact ⟨h.live.regs rfl rfl, hesp, by omega, fun _ => h.eax (Or.inl rfl), fun _ => hload, by omega,
    by omega, by omega⟩

/-- The store to the trap-time stack. -/
theorem At.movlEcxEax {ws : List U32} (h : At p c ws kept es 7 s)
    (hplace : Normal c.esp ∨ Inside c.esp) (x : U32) :
    At p c ws kept es 8 { exec p s .movlEcxEax with eip := x } := by
  have heax : s.eax = c.esp := h.eax (Or.inr rfl)
  have hge : 0xEEBFF000 + 56 ≤ c.esp.toNat ∨ (4 ≤ c.esp.toNat ∧ c.esp.toNat < 0xEEBFF000) := by
    rcases hplace with hnormal | hinside
    · exact Or.inr (normal_iff.mp hnormal)
    · exact Or.inl (inside_iff.mp hinside).1
  have hsub : (s.eax - 4#32).toNat = c.esp.toNat - 4 := by
    rw [heax]
    refine toNat_sub_of ?_
    show c.esp.toNat = _ + 4
    omega
  have hlive : Live p c ws kept es 8 (s.store (s.eax - 4#32) s.ecx) := by
    refine h.live.store (fun i hi hlo => ?_) (fun y hle hlt => ?_)
    · rcases hplace with hnormal | hinside
      · have hbounds := frameAt_bounds (Or.inl hnormal)
        rw [normal_iff] at hnormal
        omega
      · have hbase := frameAt_inside hinside
        omega
    · rcases hplace with hnormal | hinside
      · exact Or.inr ⟨hnormal, c.esp, h.live.head, by omega, by omega⟩
      · rw [changed_inside hinside, onPage_iff]
        rw [inside_iff] at hinside
        omega
  have hpushed : word (s.store (s.eax - 4#32) s.ecx).mem (c.esp.toNat - 4) = c.eip := by
    have hself : word (s.store (s.eax - 4#32) s.ecx).mem (s.eax - 4#32).toNat = s.ecx :=
      word_setWord_self
    rw [hsub] at hself
    exact hself.trans (h.ecx rfl)
  exact ⟨hlive.regs rfl rfl, h.esp, by omega, by omega, by omega, fun _ => hpushed, by omega,
    by omega⟩

theorem At.popal (h : At p c (utrapframeWords faultVa tf) kept es 8 s) (hsaves : Saves c tf)
    (hplace : Normal c.esp ∨ Inside c.esp) (x : U32) :
    At p c (utrapframeWords faultVa tf) kept es 9 { exec p s .popal with eip := x } := by
  have hbounds := frameAt_bounds hplace
  have hesp : s.esp.toNat = (frameAt c.esp).toNat + 8 := h.esp
  have hload : ∀ (n : U32) (i : Nat), n.toNat + 8 = 4 * i → i < 13 →
      s.load (s.esp + n) = (utrapframeWords faultVa tf).getD i 0 := by
    intro n i hn hi
    exact h.live.load (toNat_add_of (by omega) (by omega)) hi (by
      show 8 ≤ 4 * i
      omega)
  have hfirst : s.load s.esp = c.edi := by
    have h0 := hload 0#32 2 (by decide) (by decide)
    rw [BitVec.add_zero] at h0
    exact h0.trans hsaves.edi
  have hregs : SameRegs { exec p s .popal with eip := x } c :=
    ⟨hfirst, (hload 4#32 3 (by decide) (by decide)).trans hsaves.esi,
      (hload 8#32 4 (by decide) (by decide)).trans hsaves.ebp,
      (hload 16#32 6 (by decide) (by decide)).trans hsaves.ebx,
      (hload 20#32 7 (by decide) (by decide)).trans hsaves.edx,
      (hload 24#32 8 (by decide) (by decide)).trans hsaves.ecx,
      (hload 28#32 9 (by decide) (by decide)).trans hsaves.eax⟩
  have hadd : (s.esp + 32#32).toNat = (frameAt c.esp).toNat + 40 := toNat_add_of (by
    show s.esp.toNat + 32 = _
    omega) (by omega)
  have hlive : Live p c (utrapframeWords faultVa tf) kept es 40 s := h.live.mono (by decide)
  exact ⟨hlive.regs rfl rfl, hadd, by omega, by omega, by omega, fun _ => h.pushed (by decide),
    fun _ => hregs, by omega⟩

theorem At.addlEip {ws : List U32} (h : At p c ws kept es 9 s)
    (hplace : Normal c.esp ∨ Inside c.esp) (x : U32) :
    At p c ws kept es 10 { exec p s (.addlEsp 4#32) with eip := x } := by
  have hbounds := frameAt_bounds hplace
  have hesp : s.esp.toNat = (frameAt c.esp).toNat + 40 := h.esp
  have hadd : (s.esp + 4#32).toNat = (frameAt c.esp).toNat + 44 := toNat_add_of (by
    show s.esp.toNat + 4 = _
    omega) (by omega)
  have hlive : Live p c ws kept es 44 s := h.live.mono (by decide)
  have hregs := h.regs (by decide)
  exact ⟨hlive.regs rfl (p.system _ _ _), hadd, by omega, by omega, by omega,
    fun _ => h.pushed (by decide),
    fun _ => ⟨hregs.edi, hregs.esi, hregs.ebp, hregs.ebx, hregs.edx, hregs.ecx, hregs.eax⟩,
    by omega⟩

/-- The flags of the user come from the frame, and the others have not changed. -/
theorem popfl_eq {w f m : U32} (h : f &&& ~~~m = w &&& ~~~m) :
    (w &&& m) ||| (f &&& ~~~m) = w := by
  rw [h]
  refine BitVec.eq_of_getLsbD_eq (fun i hi => ?_)
  simp only [BitVec.getLsbD_or, BitVec.getLsbD_and, BitVec.getLsbD_not, hi, decide_true,
    Bool.true_and]
  cases w.getLsbD i <;> cases m.getLsbD i <;> rfl

theorem At.popfl (h : At p c (utrapframeWords faultVa tf) kept es 10 s) (hsaves : Saves c tf)
    (hplace : Normal c.esp ∨ Inside c.esp) (x : U32) :
    At p c (utrapframeWords faultVa tf) kept es 11 { exec p s .popfl with eip := x } := by
  have hbounds := frameAt_bounds hplace
  have hesp : s.esp.toNat = (frameAt c.esp).toNat + 44 := h.esp
  have hload : s.load s.esp = c.eflags :=
    (h.live.load (i := 11) hesp (by decide) (by decide)).trans hsaves.eflags
  have heflags : (exec p s .popfl).eflags = c.eflags := by
    show (s.load s.esp &&& p.userFlags) ||| (s.eflags &&& ~~~p.userFlags) = c.eflags
    rw [hload]
    exact popfl_eq h.live.system
  have hadd : (s.esp + 4#32).toNat = (frameAt c.esp).toNat + 48 := toNat_add_of (by
    show s.esp.toNat + 4 = _
    omega) (by omega)
  have hlive : Live p c (utrapframeWords faultVa tf) kept es 48 s := h.live.mono (by decide)
  have hregs := h.regs (by decide)
  refine ⟨hlive.regs rfl ?_, hadd, by omega, by omega, by omega, fun _ => h.pushed (by decide),
    fun _ => ⟨hregs.edi, hregs.esi, hregs.ebp, hregs.ebx, hregs.edx, hregs.ecx, hregs.eax⟩,
    fun _ => heflags⟩
  show (exec p s .popfl).eflags &&& ~~~p.userFlags = _
  rw [heflags, h.live.system]

theorem At.poplEsp (h : At p c (utrapframeWords faultVa tf) kept es 11 s) (hsaves : Saves c tf)
    (x : U32) :
    At p c (utrapframeWords faultVa tf) kept es 12 { exec p s .poplEsp with eip := x } := by
  have hesp : s.esp.toNat = (frameAt c.esp).toNat + 48 := h.esp
  have hload : s.load s.esp = c.esp :=
    (h.live.load (i := 12) hesp (by decide) (by decide)).trans hsaves.esp
  have hlive : Live p c (utrapframeWords faultVa tf) kept es 52 s := h.live.mono (by decide)
  have hregs := h.regs (by decide)
  exact ⟨hlive.regs rfl rfl, congrArg BitVec.toNat hload, by omega, by omega, by omega,
    fun _ => h.pushed (by decide),
    fun _ => ⟨hregs.edi, hregs.esi, hregs.ebp, hregs.ebx, hregs.edx, hregs.ecx, hregs.eax⟩,
    fun _ => h.eflags (by decide)⟩

theorem At.leaEsp {ws : List U32} (h : At p c ws kept es 12 s)
    (hplace : Normal c.esp ∨ Inside c.esp) (x : U32) :
    At p c ws kept es 13 { exec p s .leaEsp with eip := x } := by
  have hge : 4 ≤ c.esp.toNat := by
    rcases hplace with hnormal | hinside
    · exact hnormal.1
    · rw [inside_iff] at hinside
      omega
  have hesp : s.esp.toNat = c.esp.toNat := h.esp
  have hsub : (s.esp - 4#32).toNat = c.esp.toNat - 4 := toNat_sub_of (by
    show s.esp.toNat = _ + 4
    omega)
  have hregs := h.regs (by decide)
  exact ⟨h.live.regs rfl rfl, hsub, by omega, by omega, by omega, fun _ => h.pushed (by decide),
    fun _ => ⟨hregs.edi, hregs.esi, hregs.ebp, hregs.ebx, hregs.edx, hregs.ecx, hregs.eax⟩,
    fun _ => h.eflags (by decide)⟩

/-- Before the first instruction. -/
theorem At.start (hsaves : Saves s tf) (hplace : Normal s.esp ∨ Inside s.esp) :
    At p s (utrapframeWords faultVa tf) kept [s.esp] 0 (deliver p faultVa tf s) := by
  have hbounds := frameAt_bounds hplace
  have hmem : (deliver p faultVa tf s).mem =
      setWords s.mem (frameAt s.esp).toNat (utrapframeWords faultVa tf) := by
    show setWords s.mem (frameAt tf.tfEsp).toNat _ = _
    rw [hsaves.esp]
  have hesp : (deliver p faultVa tf s).esp = frameAt s.esp := congrArg frameAt hsaves.esp
  have hlive : Live p s (utrapframeWords faultVa tf) kept [s.esp] 0 (deliver p faultVa tf s) := by
    refine ⟨fun i hi _ => ?_, fun x _ hnot => ?_, rfl, fun e he => ?_, List.mem_singleton_self _⟩
    · rw [hmem]
      exact word_setWords hi
    · rw [hmem]
      refine setWords_of_apart ?_
      show x < _ ∨ _ + 4 * 13 ≤ x
      by_contra hin
      refine hnot (Or.inl ⟨?_, fun hinside => ?_⟩)
      · rw [onPage_iff]
        omega
      · have hbase := frameAt_inside hinside
        omega
    · rw [List.mem_singleton.mp he]
      rcases hplace with hnormal | hinside
      · exact Or.inr ⟨hnormal, hnormal, Nat.le_refl _⟩
      · exact Or.inl hinside
  refine ⟨hlive, congrArg BitVec.toNat hesp, fun _ => ?_, by omega, by omega, by omega, by omega,
    by omega⟩
  rw [hesp]
  exact hbounds.1

/-- The handler has returned. -/
theorem At.back {ws : List U32} (h : At p c ws kept es 2 s) (hesp : t.esp = s.esp)
    (hlive : Live p c ws kept es' 0 t) : At p c ws kept es' 3 t := by
  refine ⟨hlive, ?_, fun _ => ?_, by omega, by omega, by omega, by omega, by omega⟩
  · rw [hesp]
    exact h.esp
  · rw [hesp]
    exact h.room (by decide)

/-- The call of the handler. -/
theorem At.call {ws : List U32} (h : At p c ws kept es 2 s) (hplace : Normal c.esp ∨ Inside c.esp)
    (hroom : uxstackbottom.toNat + 4 ≤ s.esp.toNat) (back : U32) :
    Live p c ws kept es 0 (s.call back) ∧ (s.esp - 4#32).toNat + 8 = (frameAt c.esp).toNat := by
  have hbounds := frameAt_bounds hplace
  have hesp : s.esp.toNat = (frameAt c.esp).toNat - 4 := h.esp
  rw [uxstackbottom_toNat] at hroom
  have hsub : (s.esp - 4#32).toNat = (frameAt c.esp).toNat - 8 := toNat_sub_of (by
    show s.esp.toNat = _ + 4
    omega)
  have hlive := h.live.push hplace (a := s.esp - 4#32) (w := back) (by omega) (by omega)
  exact ⟨hlive.regs rfl rfl, by omega⟩

/-- An instruction of the upcall. -/
theorem At.insn (h : At p c (utrapframeWords faultVa tf) kept es k s) (hsaves : Saves c tf)
    (hplace : Normal c.esp ∨ Inside c.esp) {i : Insn} (hcode : code[k]? = some i)
    (hplain : i ≠ .callEax ∧ i ≠ .ret)
    (hroom : i = .pushlEsp → uxstackbottom.toNat + 4 ≤ s.esp.toNat) (x : U32) :
    At p c (utrapframeWords faultVa tf) kept es (k + 1) { exec p s i with eip := x } := by
  match k, hcode with
  | 0, hcode =>
      cases hcode
      exact h.pushlEsp hplace (hroom rfl) x
  | 1, hcode =>
      cases hcode
      exact h.movlHandlerEax x
  | 2, hcode =>
      cases hcode
      exact absurd rfl hplain.1
  | 3, hcode =>
      cases hcode
      exact h.addlArg hplace x
  | 4, hcode =>
      cases hcode
      exact h.addlErr hplace x
  | 5, hcode =>
      cases hcode
      exact h.movlEax hsaves hplace x
  | 6, hcode =>
      cases hcode
      exact h.movlEcx hsaves hplace x
  | 7, hcode =>
      cases hcode
      exact h.movlEcxEax hplace x
  | 8, hcode =>
      cases hcode
      exact h.popal hsaves hplace x
  | 9, hcode =>
      cases hcode
      exact h.addlEip hplace x
  | 10, hcode =>
      cases hcode
      exact h.popfl hsaves hplace x
  | 11, hcode =>
      cases hcode
      exact h.poplEsp hsaves x
  | 12, hcode =>
      cases hcode
      exact h.leaEsp hplace x
  | 13, hcode =>
      cases hcode
      exact absurd rfl hplain.2
  | k + 14, hcode => exact absurd hcode (by simp [code])

/-- Before the stack is switched, `esp` is on the exception stack, and what is needed of the frame
is above. -/
theorem espAt_bounds {ws : List U32} (hplace : Normal c.esp ∨ Inside c.esp)
    (h : At p c ws kept es k s) (hk : k ≤ 11) :
    0xEEBFF000 ≤ s.esp.toNat ∧ s.esp.toNat ≤ (frameAt c.esp).toNat + needed k ∧
      s.esp.toNat ≤ (frameAt c.esp).toNat + 48 := by
  have hbounds := frameAt_bounds hplace
  have hesp := h.esp
  have hroom := h.room
  interval_cases k <;> simp only [espAt] at hesp <;> simp only [needed] <;> omega

/-- An instruction that faults is run again in the same state. -/
theorem At.again {ws : List U32} (h : At p c ws kept es k s) (hplace : Normal c.esp ∨ Inside c.esp)
    (hk : k < 14) (hlea : k ≠ 12) (hplace' : Normal s.esp ∨ Inside s.esp)
    (hhandled : Handled (guarded kept c.esp) es' s t) : At p c ws kept (es ++ es') k t := by
  have hsame := hhandled.same
  have hesp : t.esp = s.esp := by
    rw [hsame]
  have hsafe : Live p c ws kept (es ++ es') (needed k) t ∧
      (8 ≤ k → word t.mem (c.esp.toNat - 4) = word s.mem (c.esp.toNat - 4)) := by
    rcases Nat.lt_or_ge 11 k with hlast | hle
    · obtain rfl : k = 13 := by omega
      have hesp' : s.esp.toNat = c.esp.toNat - 4 := h.esp
      have hge : 4 ≤ c.esp.toNat := by
        rcases hplace with hnormal | hinside
        · exact hnormal.1
        · rw [inside_iff] at hinside
          omega
      have hboth := h.live.faultBelow hplace hplace' (by omega) hhandled
      exact ⟨hboth.1, fun _ => hboth.2⟩
    · obtain ⟨hlow, hneeded, hhigh⟩ := espAt_bounds hplace h hle
      have hinside : Inside s.esp := by
        refine hplace'.resolve_left (fun hnormal => ?_)
        rw [normal_iff] at hnormal
        omega
      have hlo : needed k ≤ 52 := by
        interval_cases k <;> decide
      refine ⟨h.live.fault hplace hinside hneeded hlo hhandled, fun _ => ?_⟩
      refine word_congr (fun x hge hlt => ?_)
      have hge4 : 4 ≤ c.esp.toNat := by
        rcases hplace with hnormal | hin
        · exact hnormal.1
        · rw [inside_iff] at hin
          omega
      refine hhandled.mem x (Or.inl (Or.inr (Or.inl ⟨hge, by omega⟩))) (fun hchanged => ?_)
      obtain ⟨hon, hbelow⟩ := (changed_inside hinside).mp hchanged
      rw [onPage_iff] at hon
      rcases hplace with hnormal | hin
      · rw [normal_iff] at hnormal
        omega
      · have hbase := frameAt_inside hin
        omega
  refine ⟨hsafe.1, ?_, fun hle => ?_, fun h6 => ?_, fun h7 => ?_, fun h8 => ?_, fun h9 => ?_,
    fun h11 => ?_⟩
  · rw [hesp]
    exact h.esp
  · rw [hesp]
    exact h.room hle
  · rw [hsame]
    exact h.eax h6
  · rw [hsame]
    exact h.ecx h7
  · exact (hsafe.2 h8).trans (h.pushed h8)
  · have hregs := h.regs h9
    rw [hsame]
    exact ⟨hregs.edi, hregs.esi, hregs.ebp, hregs.ebx, hregs.edx, hregs.ecx, hregs.eax⟩
  · rw [hsame]
    exact h.eflags h11

/-- `ret`, on the trap-time stack. -/
theorem At.handled {ws : List U32} (h : At p s ws kept es 13 t)
    (hplace : Normal s.esp ∨ Inside s.esp) :
    Handled kept es s t.ret := by
  have hge : 4 ≤ s.esp.toNat := by
    rcases hplace with hnormal | hinside
    · exact hnormal.1
    · rw [inside_iff] at hinside
      omega
  have hesp : t.esp.toNat = s.esp.toNat - 4 := h.esp
  have heip : t.load t.esp = s.eip := by
    unfold Cpu.load
    rw [hesp]
    exact h.pushed (by decide)
  have hadd : t.esp + 4#32 = s.esp := by
    refine BitVec.eq_of_toNat_eq (toNat_add_of ?_ s.esp.isLt)
    show t.esp.toNat + 4 = _
    omega
  have hregs := h.regs (by decide)
  refine ⟨?_, h.live.mem, h.live.nest⟩
  exact Cpu.ext hregs.edi hregs.esi hregs.ebp hregs.ebx hregs.edx hregs.ecx hregs.eax heip
    (h.eflags (by decide)) hadd rfl

end Instructions

/-! ## Nested faults -/

/-- What a run does, for a fault at a place where this is known to work. -/
def Goal (p : Placement) : Mode → Set Nat → List U32 → Cpu → Cpu → Prop
  | .fault, kept, es, s, t => Handled kept es s t
  | .upcall, inner, es, s, t =>
      ∀ c faultVa tf kept es₀ k, inner = guarded kept c.esp → Normal c.esp ∨ Inside c.esp →
        Saves c tf → k < 14 → s.eip = p.addr k →
        At p c (utrapframeWords faultVa tf) kept es₀ k s →
        ∃ k', k' < 14 ∧ t.eip = p.addr k' ∧
          At p c (utrapframeWords faultVa tf) kept (es₀ ++ es) k' t
  | .handler top, inner, es, s, t =>
      ∀ c ws kept es₀, inner = guarded kept c.esp → Normal c.esp ∨ Inside c.esp →
        top.toNat ≤ (frameAt c.esp).toNat → Live p c ws kept es₀ 0 s →
        Live p c ws kept (es₀ ++ es) 0 t

/-- A handler's faults are below the frame. -/
theorem Live.nested {p : Placement} {c s t : Cpu} {ws : List U32} {kept : Set Nat}
    {es es' : List U32} {top : U32} (h : Live p c ws kept es 0 s)
    (hplace : Normal c.esp ∨ Inside c.esp)
    (htop : top.toNat ≤ (frameAt c.esp).toNat) (habove : uxstackbottom.toNat ≤ s.esp.toNat)
    (hbelow : s.esp.toNat ≤ top.toNat) (hplace' : Normal s.esp ∨ Inside s.esp)
    (hhandled : Handled (guarded kept c.esp) es' s t) : Live p c ws kept (es ++ es') 0 t := by
  have hinside : Inside s.esp := by
    refine hplace'.resolve_left (fun hnormal => ?_)
    rw [normal_iff] at hnormal
    rw [uxstackbottom_toNat] at habove
    omega
  exact h.fault hplace hinside (by omega) (Nat.zero_le 52) hhandled

theorem Run.place {p : Placement} {kept : Set Nat} {es : List U32} {s t : Cpu}
    (h : Run p .fault kept es s t) : Normal s.esp ∨ Inside s.esp := by
  cases h with
  | fault hplace _ _ _ => exact hplace

theorem code_lt {k : Nat} {i : Insn} (h : code[k]? = some i) : k < 14 :=
  (List.getElem?_eq_some_iff.mp h).1

theorem Run.goal {p : Placement} {mode : Mode} {kept : Set Nat} {es : List U32} {s t : Cpu}
    (h : Run p mode kept es s t) : Goal p mode kept es s t := by
  induction h with
  | @fault kept es s t faultVa tf hplace hsaves _ hret ih =>
      obtain ⟨k, hk, heip, hat⟩ :=
        ih s faultVa tf kept [s.esp] 0 rfl hplace hsaves (by decide) rfl (At.start hsaves hplace)
      obtain rfl : 13 = k := p.apart 13 k (by decide) hk (hret.symm.trans heip)
      exact hat.handled hplace
  | stop =>
      intro c faultVa tf kept es₀ k hinner hplace hsaves hk heip hat
      rw [List.append_nil]
      exact ⟨k, hk, heip, hat⟩
  | @insn inner es s t j i hcode heip hplain hroom _ ih =>
      intro c faultVa tf kept es₀ k hinner hplace hsaves hk heip' hat
      obtain rfl : j = k := p.apart j k (code_lt hcode) hk (heip.symm.trans heip')
      have hlast : j ≠ 13 := by
        rintro rfl
        exact hplain.2 (Option.some.inj hcode.symm)
      exact ih c faultVa tf kept es₀ (j + 1) hinner hplace hsaves (by omega) rfl
        (hat.insn hsaves hplace hcode hplain hroom _)
  | @again inner es es' s s' t j i hcode heip haccess hfault _ ihfault ih =>
      intro c faultVa tf kept es₀ k hinner hplace hsaves hk heip' hat
      obtain rfl : j = k := p.apart j k (code_lt hcode) hk (heip.symm.trans heip')
      have hlea : j ≠ 12 := by
        rintro rfl
        exact haccess (Option.some.inj hcode.symm)
      have hhandled : Handled (guarded kept c.esp) es s s' := hinner ▸ ihfault
      have heip'' : s'.eip = p.addr j := by
        rw [hhandled.same]
        exact heip
      rw [← List.append_assoc]
      exact ih c faultVa tf kept (es₀ ++ es) j hinner hplace hsaves hk heip''
        (hat.again hplace hk hlea hfault.place hhandled)
  | @call inner es es' s s' t heip hroom _ hback hesp _ ihhandler ih =>
      intro c faultVa tf kept es₀ k hinner hplace hsaves hk heip' hat
      obtain rfl : 2 = k := p.apart 2 k (by decide) hk (heip.symm.trans heip')
      obtain ⟨hlive, htop⟩ := hat.call hplace hroom (p.addr 3)
      have hlive' :=
        ihhandler c (utrapframeWords faultVa tf) kept es₀ hinner hplace (by omega) hlive
      rw [← List.append_assoc]
      exact ih c faultVa tf kept (es₀ ++ es) 3 hinner hplace hsaves (by decide) hback
        (hat.back hesp hlive')
  | done =>
      intro c ws kept es₀ hinner hplace htop hlive
      rw [List.append_nil]
      exact hlive
  | @own inner top es s s' t hown _ ih =>
      intro c ws kept es₀ hinner hplace htop hlive
      exact ih c ws kept es₀ hinner hplace htop (hlive.ownStep hplace (hinner ▸ hown))
  | @nested inner top es es' s s' t habove hbelow hfault _ ihfault ih =>
      intro c ws kept es₀ hinner hplace htop hlive
      rw [← List.append_assoc]
      exact ih c ws kept (es₀ ++ es) hinner hplace htop
        (hlive.nested hplace htop habove hbelow hfault.place (hinner ▸ ihfault))

/-! ## The upcall comes to its end -/

/-- Where an upcall can go on from here. -/
def Leads (p : Placement) (kept : Set Nat) (s t : Cpu) : Prop :=
  ∀ es u, Run p .upcall kept es t u → Run p .upcall kept es s u

section Leads

variable {p : Placement} {kept : Set Nat} {c s t u : Cpu} {ws : List U32} {es : List U32} {k : Nat}

theorem Leads.trans (h : Leads p kept s t) (h' : Leads p kept t u) : Leads p kept s u :=
  fun es v hrun => h es v (h' es v hrun)

theorem Leads.run (h : Leads p kept s t) : Run p .upcall kept [] s t := h [] t .stop

/-- Instructions that do not fault. -/
theorem leads_insn {i : Insn} (hcode : code[k]? = some i) (heip : s.eip = p.addr k)
    (hplain : i ≠ .callEax ∧ i ≠ .ret)
    (hroom : i = .pushlEsp → uxstackbottom.toNat + 4 ≤ s.esp.toNat) :
    Leads p kept s { exec p s i with eip := p.addr (k + 1) } :=
  fun _ _ hrun => .insn hcode heip hplain hroom hrun

/-- Once the handler has returned, the upcall comes to any of its later instructions. -/
theorem leads_after (p : Placement) (kept : Set Nat) {m : Nat} (n : Nat) (hsum : n + k = m)
    (hm : m ≤ 13) (hk : 3 ≤ k) (heip : s.eip = p.addr k) :
    ∃ t, Leads p kept s t ∧ t.eip = p.addr m := by
  induction n generalizing k s with
  | zero =>
      obtain rfl : k = m := by omega
      exact ⟨s, fun _ _ hrun => hrun, heip⟩
  | succ n ih =>
      have hplain : ∀ k, k < 13 → 3 ≤ k → ∃ i, code[k]? = some i ∧ i ≠ .callEax ∧ i ≠ .ret ∧
          i ≠ .pushlEsp := by decide
      obtain ⟨i, hcode, hcall, hret, hpush⟩ := hplain k (by omega) hk
      obtain ⟨t, hlead, hlast⟩ := ih (k := k + 1) (by omega) (by omega)
        (s := { exec p s i with eip := p.addr (k + 1) }) rfl
      have hfirst : Leads p kept s { exec p s i with eip := p.addr (k + 1) } :=
        leads_insn hcode heip ⟨hcall, hret⟩ (fun h => absurd h hpush)
      exact ⟨t, hfirst.trans hlead, hlast⟩

/-- And before, it comes to the call. -/
theorem leads_call (p : Placement) (inner : Set Nat) (hk : k ≤ 2) (h : At p c ws kept es k s)
    (heip : s.eip = p.addr k) (hroom : uxstackbottom.toNat + 8 ≤ (frameAt c.esp).toNat) :
    ∃ t, Leads p inner s t ∧ t.eip = p.addr 2 ∧ uxstackbottom.toNat + 4 ≤ t.esp.toNat := by
  have hload : ∀ s' : Cpu, s'.eip = p.addr 1 → uxstackbottom.toNat + 4 ≤ s'.esp.toNat →
      ∃ t, Leads p inner s' t ∧ t.eip = p.addr 2 ∧ uxstackbottom.toNat + 4 ≤ t.esp.toNat := by
    intro s' heip' hroom'
    exact ⟨_, leads_insn (k := 1) (i := .movlHandlerEax) rfl heip' (by decide)
      (fun h => by cases h), rfl, hroom'⟩
  have hesp := h.esp
  match k, hk with
  | 0, _ =>
      have hesp : s.esp.toNat = (frameAt c.esp).toNat := hesp
      have hsub : (s.esp - 4#32).toNat = (frameAt c.esp).toNat - 4 := toNat_sub_of (by
        show s.esp.toNat = _ + 4
        omega)
      have hpush : Leads p inner s { exec p s .pushlEsp with eip := p.addr 1 } :=
        leads_insn (k := 0) rfl heip (by decide) (fun _ => by omega)
      have hroom' : uxstackbottom.toNat + 4 ≤ (s.esp - 4#32).toNat := by omega
      obtain ⟨t, hlead, hcall⟩ := hload { exec p s .pushlEsp with eip := p.addr 1 } rfl hroom'
      exact ⟨t, hpush.trans hlead, hcall⟩
  | 1, _ =>
      have hesp : s.esp.toNat = (frameAt c.esp).toNat - 4 := hesp
      exact hload s heip (by omega)
  | 2, _ =>
      have hesp : s.esp.toNat = (frameAt c.esp).toNat - 4 := hesp
      exact ⟨s, fun _ _ hrun => hrun, heip, by omega⟩

end Leads

/-! ## A fault is transparent -/

theorem Handled.resumes {kept : Set Nat} {es : List U32} {s t : Cpu}
    (h : Handled kept es s t) : Resumes kept es s t := by
  refine ⟨h.same, fun x hx hne => ?_⟩
  by_contra hnot
  rcases hx with ⟨hkept, hoff⟩ | ⟨hinside, hge, hlt⟩
  · refine hne (h.mem x (Or.inl hkept) ?_)
    rintro (⟨hon, -⟩ | ⟨-, hword⟩)
    · exact hoff hon
    · exact hnot hword
  · have hbase := frameAt_inside hinside
    refine hne (h.mem x (Or.inr (Or.inr ⟨by omega, hlt⟩)) (fun hchanged => ?_))
    have hbelow := ((changed_inside hinside).mp hchanged).2
    omega

/-- A fault that has been handled has not been noticed, whatever faults there were on the way.  And
the upcall comes to the call of the handler, and from where this returns to its last
instruction. -/
theorem fault_transparent (p : Placement) (kept : Set Nat) (es : List U32) (s t : Cpu) :
    (Run p .fault kept es s t → Resumes kept es s t) ∧
    ∀ faultVa tf, Normal s.esp ∨ Inside s.esp → Saves s tf →
      uxstackbottom.toNat + 8 ≤ (frameAt s.esp).toNat →
      Run p .upcall (guarded kept s.esp) es (deliver p faultVa tf s) t →
      ∃ t', Run p .upcall (guarded kept s.esp) [] t t' ∧ (t'.eip = p.addr 13 ∨
        t'.eip = p.addr 2 ∧ uxstackbottom.toNat + 4 ≤ t'.esp.toNat) := by
  refine ⟨fun h => h.goal.resumes, fun faultVa tf hplace hsaves hroom h => ?_⟩
  obtain ⟨k, hk, heip, hat⟩ := h.goal s faultVa tf kept [s.esp] 0 rfl hplace hsaves (by decide) rfl
    (At.start hsaves hplace)
  rcases Nat.lt_or_ge 2 k with hafter | hbefore
  · obtain ⟨t', hlead, hlast⟩ :=
      leads_after p (guarded kept s.esp) (m := 13) (13 - k) (by omega) (Nat.le_refl 13) hafter heip
    exact ⟨t', hlead.run, Or.inl hlast⟩
  · obtain ⟨t', hlead, hcall⟩ := leads_call p (guarded kept s.esp) hbefore hat heip hroom
    exact ⟨t', hlead.run, Or.inr hcall⟩

/-- A placement, with additions that leave the flags alone. -/
def somePlacement : Placement where
  addr k := 0x800020#32 + BitVec.ofNat 32 k
  handler := 0x804000#32
  userFlags := 0x244dd5#32
  addl f _ _ := f
  apart j k hj hk h := by
    have hnat := congrArg BitVec.toNat h
    simp only [BitVec.toNat_add, BitVec.toNat_ofNat] at hnat
    omega
  system _ _ _ := rfl

/-- The trap frame of a fault. -/
def trapframeOf (s : Cpu) : Trapframe :=
  { initialTf with
    tfRegs := { initialTf.tfRegs with
      regEdi := s.edi, regEsi := s.esi, regEbp := s.ebp, regEbx := s.ebx
      regEdx := s.edx, regEcx := s.ecx, regEax := s.eax }
    tfEip := s.eip
    tfEflags := s.eflags
    tfEsp := s.esp }

theorem saves_trapframeOf (s : Cpu) : Saves s (trapframeOf s) :=
  ⟨rfl, rfl, rfl, rfl, rfl, rfl, rfl, rfl, rfl, rfl⟩

/-- A handler that returns at once. -/
theorem leads_back {p : Placement} {kept : Set Nat} {s : Cpu} (heip : s.eip = p.addr 2)
    (hroom : uxstackbottom.toNat + 4 ≤ s.esp.toNat) :
    Leads p kept s { s.call (p.addr 3) with eip := p.addr 3, esp := s.esp } := by
  intro es u hrun
  have hown : OwnStep p kept (s.call (p.addr 3))
      { s.call (p.addr 3) with eip := p.addr 3, esp := s.esp } := ⟨fun _ _ => rfl, rfl⟩
  exact .call heip hroom (.own hown .done) rfl rfl hrun

/-- With such a handler an upcall comes to any instruction after the call. -/
theorem leads_upcall (p : Placement) (kept : Set Nat) {s : Cpu}
    (hplace : Normal s.esp ∨ Inside s.esp)
    (hroom : uxstackbottom.toNat + 8 ≤ (frameAt s.esp).toNat) {m : Nat} (hm : 3 ≤ m ∧ m ≤ 13) :
    ∃ t, Leads p (guarded kept s.esp) (deliver p 0#32 (trapframeOf s) s) t ∧ t.eip = p.addr m := by
  have hat : At p s (utrapframeWords 0#32 (trapframeOf s)) kept [s.esp] 0
      (deliver p 0#32 (trapframeOf s) s) := At.start (saves_trapframeOf s) hplace
  obtain ⟨t, hlead, heip, hroom'⟩ :=
    leads_call p (guarded kept s.esp) (k := 0) (by decide) hat rfl hroom
  obtain ⟨u, hlead', hu⟩ := leads_after p (guarded kept s.esp)
    (s := { t.call (p.addr 3) with eip := p.addr 3, esp := t.esp }) (m - 3) (by omega) hm.2
    (Nat.le_refl 3) rfl
  exact ⟨u, hlead.trans ((leads_back heip hroom').trans hlead'), hu⟩

/-- A fault with such a handler. -/
theorem run_fault (p : Placement) (kept : Set Nat) {s : Cpu} (hplace : Normal s.esp ∨ Inside s.esp)
    (hroom : uxstackbottom.toNat + 8 ≤ (frameAt s.esp).toNat) :
    ∃ t, Run p .fault kept [s.esp] s t := by
  obtain ⟨t, hlead, hret⟩ := leads_upcall p kept hplace hroom (m := 13) (by decide)
  exact ⟨t.ret, .fault hplace (saves_trapframeOf s) hlead.run hret⟩

/-- A fault, and another one when its upcall stores to the trap-time stack. -/
theorem run_fault_store (p : Placement) (kept : Set Nat) {s : Cpu} (hnormal : Normal s.esp) :
    ∃ t, Run p .fault kept [s.esp, 0xEEBFFFD0#32] s t := by
  have htop := frameAt_normal hnormal
  have hroom : uxstackbottom.toNat + 8 ≤ (frameAt s.esp).toNat := by
    rw [uxstackbottom_toNat]
    omega
  obtain ⟨t, hlead, heip⟩ := leads_upcall p kept (Or.inl hnormal) hroom (m := 7) (by decide)
  obtain ⟨k, hk, heip', hat⟩ := hlead.run.goal s 0#32 (trapframeOf s) kept [s.esp] 0 rfl
    (Or.inl hnormal) (saves_trapframeOf s) (by decide) rfl
    (At.start (saves_trapframeOf s) (Or.inl hnormal))
  obtain rfl : 7 = k := p.apart 7 k (by decide) hk (heip.symm.trans heip')
  have hesp : t.esp = 0xEEBFFFD0#32 := by
    refine BitVec.eq_of_toNat_eq (hat.esp.trans ?_)
    show (frameAt s.esp).toNat + 8 = 0xEEBFFFD0
    omega
  have hinside : Inside t.esp := by
    rw [hesp, inside_iff]
    decide
  obtain ⟨t', hfault⟩ := run_fault p (guarded kept s.esp) (Or.inr hinside) (by
    rw [hesp]
    decide)
  have hsame := hfault.goal.same
  have heip'' : t'.eip = p.addr 7 := by
    rw [hsame]
    exact heip
  obtain ⟨u, hlead', hret⟩ := leads_after p (guarded kept s.esp) (m := 13) 6 rfl
    (Nat.le_refl 13) (by decide) heip''
  have hrun : Run p .upcall (guarded kept s.esp) [t.esp] t u :=
    .again (k := 7) (i := .movlEcxEax) rfl heip (by decide) hfault hlead'.run
  rw [← hesp]
  exact ⟨u.ret, .fault (Or.inl hnormal) (saves_trapframeOf s) (hlead _ _ hrun) hret⟩

/-- This happens at the top of a normal stack. -/
theorem fault_transparent_nested : ∃ t, Run somePlacement .fault Set.univ
    [0xEEBFDFF0#32, 0xEEBFFFD0#32] ⟨1, 2, 3, 4, 5, 6, 7, 8, 0x202, 0xEEBFDFF0, fun _ => 0⟩ t ∧
    Resumes Set.univ [0xEEBFDFF0#32, 0xEEBFFFD0#32]
      ⟨1, 2, 3, 4, 5, 6, 7, 8, 0x202, 0xEEBFDFF0, fun _ => 0⟩ t := by
  have hnormal : Normal 0xEEBFDFF0 := by
    rw [normal_iff]
    decide
  obtain ⟨t, hrun⟩ := run_fault_store somePlacement Set.univ
    (s := ⟨1, 2, 3, 4, 5, 6, 7, 8, 0x202, 0xEEBFDFF0, fun _ => 0⟩) hnormal
  exact ⟨t, hrun, (fault_transparent _ _ _ _ _).1 hrun⟩

end Upcall

end Jos

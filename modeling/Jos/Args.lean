import Mathlib.Data.List.Basic
import Jos.Mmu

/-!
# Options of a program

`argnext` returns the option letters of a command line one by one and takes the arguments
that it is done with out of the array; `argvalue` takes the value of the last option.

What they return is what a scanner of the list of the arguments gives, and the array keeps
the arguments that the scanner leaves.
-/

namespace Jos
namespace Args

/-! ## The code -/

/-- `struct Argstate`, with the `*argc` and the array `argv` it points to. -/
structure Argstate where
  argc : Nat
  argv : Nat → Nat
  curarg : Nat
  argvalue : Nat

section

variable (mem : Nat → U8) (empty : Nat)

/-- `argstart`, with the address of a literal `""`. -/
def argstart (argc : Nat) (argv : Nat → Nat) : Argstate where
  argc := argc
  argv := argv
  curarg := if 1 < argc then empty else 0
  argvalue := 0

/-- The `memmove` by which the second argument goes away, and the new count. -/
def Argstate.shifted (s : Argstate) : Argstate :=
  { s with
    argv := fun i => if 1 ≤ i ∧ i < 1 + (s.argc - 1) then s.argv (i + 1) else s.argv i
    argc := s.argc - 1 }

/-- The label `endofargs`. -/
def Argstate.endofargs (s : Argstate) : Int × Argstate := (-1, { s with curarg := 0 })

/-- The next character of the current argument. -/
def Argstate.letter (s : Argstate) : Int × Argstate :=
  ((mem s.curarg).toNat, { s with curarg := s.curarg + 1 })

def argnext (s : Argstate) : Int × Argstate :=
  let s := { s with argvalue := 0 }
  if s.curarg = 0 then (-1, s)
  else if mem s.curarg = 0#8 then
    if s.argc = 1 ∨ mem (s.argv 1) ≠ 45#8 ∨ mem (s.argv 1 + 1) = 0#8 then s.endofargs
    else
      let s := { s.shifted with curarg := s.argv 1 + 1 }
      if mem s.curarg = 45#8 ∧ mem (s.curarg + 1) = 0#8 then s.endofargs
      else s.letter mem
  else s.letter mem

def argnextvalue (s : Argstate) : Nat × Argstate :=
  if s.curarg = 0 then (0, s)
  else
    let s :=
      if mem s.curarg ≠ 0#8 then { s with argvalue := s.curarg, curarg := empty }
      else if 1 < s.argc then { s.shifted with argvalue := s.argv 1 }
      else { s with argvalue := 0, curarg := 0 }
    (s.argvalue, s)

def argvalue (s : Argstate) : Nat × Argstate :=
  if s.argvalue ≠ 0 then (s.argvalue, s) else argnextvalue mem empty s

/-- So many calls of `argvalue`, and what they return. -/
def argvalues : Nat → Argstate → List Nat × Argstate
  | 0, s => ([], s)
  | n + 1, s =>
      let (v, s) := argvalue mem empty s
      let (vs, s) := argvalues n s
      (v :: vs, s)

/-- A program that calls `argnext` until it returns -1, and `argvalue` as often as it likes
after each result; with less than so many calls of `argnext`. -/
def options (asks : Nat → Nat) : Nat → Nat → Argstate → Option (List (Int × List Nat) × Argstate)
  | 0, _, _ => none
  | fuel + 1, i, s =>
      let (arg, s) := argnext mem s
      if arg = -1 then some ([], s)
      else
        let (vs, s) := argvalues mem empty (asks i) s
        (options asks fuel (i + 1) s).map (fun r => ((arg, vs) :: r.1, r.2))

/-- What a program may call after the end. -/
inductive Call where
  | next
  | value

/-- The state after a call. -/
def Argstate.call (s : Argstate) : Call → Argstate
  | .next => (argnext mem s).2
  | .value => (Args.argvalue mem empty s).2

end

/-! ## The scanner -/

/-- An argument, or the rest of one: a pointer and the characters there. -/
structure Arg where
  ptr : Nat
  text : List U8

/-- Behind the last character of an argument. -/
def Arg.none : Arg := ⟨0, []⟩

/-- The option letters of an argument, if it has some: not of a lone `-`. -/
def Arg.letters (a : Arg) : Option Arg :=
  match a.text with
  | d :: c :: cs => if d = 45#8 then some ⟨a.ptr + 1, c :: cs⟩ else Option.none
  | _ => Option.none

/-- The length of all arguments. -/
def size (cur : Arg) (args : List Arg) : Nat :=
  cur.text.length + (args.map (fun a => a.text.length)).sum

theorem Arg.letters_length {a cur : Arg} (h : a.letters = some cur) :
    cur.text.length < a.text.length := by
  unfold Arg.letters at h
  split at h
  · rename_i d c cs htext
    split at h
    · cases h
      rw [htext]
      exact Nat.lt_succ_self _
    · cases h
  · cases h

/-- The option letters with their values, where the program asks for them, and the arguments
that are left: `cur` is the rest of the argument whose letters are being read.  The value of
an option is the rest of its argument, or else the next argument. -/
def scan (asks : Nat → Nat) (i : Nat) (cur : Arg) (args : List Arg) :
    List (Int × List Nat) × List Arg :=
  match _htext : cur.text with
  | c :: cs =>
      let result := fun v => ((c.toNat : Int), List.replicate (asks i) v)
      if asks i = 0 then
        let r := scan asks (i + 1) ⟨cur.ptr + 1, cs⟩ args
        (result 0 :: r.1, r.2)
      else if cs ≠ [] then
        let r := scan asks (i + 1) Arg.none args
        (result (cur.ptr + 1) :: r.1, r.2)
      else
        match args with
        | a :: rest =>
            let r := scan asks (i + 1) Arg.none rest
            (result a.ptr :: r.1, r.2)
        | [] => ([result 0], [])
  | [] =>
      match args with
      | [] => ([], [])
      | a :: rest =>
          match _hletters : a.letters with
          | some cur' => if cur'.text = [45#8] then ([], rest) else scan asks i cur' rest
          | Option.none => ([], a :: rest)
termination_by size cur args
decreasing_by
  all_goals simp only [size, _htext, Arg.none, List.length_cons, List.length_nil,
    List.map_cons, List.sum_cons]
  · omega
  · omega
  · omega
  · have hlt := Arg.letters_length _hletters
    omega

theorem scan_end (asks : Nat → Nat) (i p : Nat) : scan asks i ⟨p, []⟩ [] = ([], []) := by
  rw [scan.eq_def]

/-- The next argument, when the letters of one are over. -/
theorem scan_argument (asks : Nat → Nat) (i p : Nat) (a : Arg) (rest : List Arg) :
    scan asks i ⟨p, []⟩ (a :: rest) = match a.letters with
      | some cur => if cur.text = [45#8] then ([], rest) else scan asks i cur rest
      | Option.none => ([], a :: rest) := by
  rw [scan.eq_def]
  dsimp only
  split
  · rename_i heq
    rw [heq]
  · rename_i heq
    rw [heq]

/-! ## Strings and the array -/

/-- The characters from an address on, up to the NUL. -/
def IsStr (mem : Nat → U8) : Nat → List U8 → Prop
  | p, [] => mem p = 0#8
  | p, c :: cs => c ≠ 0#8 ∧ mem p = c ∧ IsStr mem (p + 1) cs

/-- The array holds its first entry, the arguments, and a null pointer. -/
structure Holds (mem : Nat → U8) (argv₀ argc : Nat) (argv : Nat → Nat) (args : List Arg) :
    Prop where
  count : argc = args.length + 1
  first : argv 0 = argv₀
  each : ∀ i a, args[i]? = some a → argv (i + 1) = a.ptr
  null : argv argc = 0
  valid : ∀ a ∈ args, a.ptr ≠ 0 ∧ IsStr mem a.ptr a.text

section

variable {mem : Nat → U8} {empty argv₀ : Nat} {s s' : Argstate} {cur a : Arg} {args rest : List Arg}
variable {asks : Nat → Nat} {c : U8} {cs : List U8} {p v n i : Nat}

theorem IsStr.head (h : IsStr mem p cs) : mem p = 0#8 ↔ cs = [] := by
  cases cs with
  | nil => exact ⟨fun _ => rfl, fun _ => h⟩
  | cons c cs => exact ⟨fun hzero => absurd (h.2.1.symm.trans hzero) h.1, fun heq => by cases heq⟩

/-- The arguments behind one that goes away. -/
theorem Holds.shifted (h : Holds mem argv₀ s.argc s.argv (a :: rest)) :
    Holds mem argv₀ s.shifted.argc s.shifted.argv rest := by
  have hcount : s.argc = rest.length + 1 + 1 := h.count
  refine ⟨?_, ?_, ?_, ?_, fun b hb => h.valid b (List.mem_cons_of_mem _ hb)⟩
  · dsimp only [Argstate.shifted]
    omega
  · have hno : ¬ (1 ≤ 0 ∧ 0 < 1 + (s.argc - 1)) := by omega
    dsimp only [Argstate.shifted]
    rw [if_neg hno]
    exact h.first
  · intro i b hi
    have hlt := (List.getElem?_eq_some_iff.mp hi).1
    dsimp only [Argstate.shifted]
    rw [if_pos (by omega)]
    exact h.each (i + 1) b hi
  · dsimp only [Argstate.shifted]
    rw [if_pos (by omega), Nat.sub_add_cancel (by omega)]
    exact h.null

theorem Holds.next (h : Holds mem argv₀ s.argc s.argv (a :: rest)) : s.argv 1 = a.ptr :=
  h.each 0 a rfl

/-- The scanner is in the argument `cur`, and the arguments behind it are in the array. -/
structure At (mem : Nat → U8) (argv₀ : Nat) (s : Argstate) (cur : Arg) (args : List Arg) :
    Prop where
  array : Holds mem argv₀ s.argc s.argv args
  going : s.curarg ≠ 0
  text : IsStr mem s.curarg cur.text
  ptr : cur.text ≠ [] → s.curarg = cur.ptr

/-- The options are over, and the arguments that are left are in the array. -/
structure Ended (mem : Nat → U8) (argv₀ : Nat) (s : Argstate) (args : List Arg) : Prop where
  array : Holds mem argv₀ s.argc s.argv args
  done : s.curarg = 0

/-! ## One option -/

/-- The next letter of an argument. -/
theorem At.letter (h : At mem argv₀ s cur args) (htext : cur.text = c :: cs) :
    ∃ s', argnext mem s = ((c.toNat : Int), s') ∧ s'.argvalue = 0 ∧
      At mem argv₀ s' ⟨cur.ptr + 1, cs⟩ args := by
  have hstr := h.text
  rw [htext] at hstr
  have hptr := h.ptr (by rw [htext]; exact List.cons_ne_nil _ _)
  have hnonempty : mem s.curarg ≠ 0#8 := hstr.2.1.symm ▸ hstr.1
  refine ⟨{ s with argvalue := 0, curarg := s.curarg + 1 }, ?_, rfl, h.array,
    Nat.succ_ne_zero _, hstr.2.2, fun _ => by rw [← hptr]⟩
  unfold argnext
  dsimp only
  rw [if_neg h.going, if_neg hnonempty, Argstate.letter, hstr.2.1]

/-- What `argnext` looks for in an argument. -/
theorem letters_eq_none_iff (hstr : IsStr mem a.ptr a.text) :
    mem a.ptr ≠ 45#8 ∨ mem (a.ptr + 1) = 0#8 ↔ a.letters = Option.none := by
  obtain ⟨ptr, text⟩ := a
  match text, hstr with
  | [], h =>
      refine ⟨fun _ => rfl, fun _ => Or.inl ?_⟩
      rw [show mem ptr = 0#8 from h]
      decide
  | [d], h => exact ⟨fun _ => rfl, fun _ => Or.inr h.2.2⟩
  | d :: c :: cs, h =>
      have hsecond : mem (ptr + 1) ≠ 0#8 := h.2.2.2.1.symm ▸ h.2.2.1
      have hfirst : mem ptr = d := h.2.1
      rw [hfirst]
      unfold Arg.letters
      by_cases hd : d = 45#8
      · simp [hd, hsecond]
      · simp [hd]

theorem letters_text (hstr : IsStr mem a.ptr a.text) (h : a.letters = some cur) :
    cur.ptr = a.ptr + 1 ∧ IsStr mem (a.ptr + 1) cur.text ∧ cur.text ≠ [] := by
  obtain ⟨ptr, text⟩ := a
  unfold Arg.letters at h
  split at h
  · rename_i d c cs heq
    dsimp only at heq
    subst heq
    split at h
    · cases h
      exact ⟨rfl, hstr.2.2, List.cons_ne_nil _ _⟩
    · cases h
  · cases h

/-- The end of the arguments, or an argument without letters. -/
theorem At.stops (h : At mem argv₀ s cur args) (htext : cur.text = [])
    (hargs : args = [] ∨ ∃ a rest, args = a :: rest ∧ a.letters = Option.none) :
    ∃ s', argnext mem s = (-1, s') ∧ Ended mem argv₀ s' args := by
  refine ⟨{ s with argvalue := 0, curarg := 0 }, ?_, h.array, rfl⟩
  have hzero : mem s.curarg = 0#8 := h.text.head.mpr htext
  have hcond : s.argc = 1 ∨ mem (s.argv 1) ≠ 45#8 ∨ mem (s.argv 1 + 1) = 0#8 := by
    rcases hargs with rfl | ⟨a, rest, rfl, hnone⟩
    · exact Or.inl h.array.count
    · right
      rw [h.array.next]
      exact (letters_eq_none_iff (h.array.valid a List.mem_cons_self).2).mpr hnone
  unfold argnext
  dsimp only
  rw [if_neg h.going, if_pos hzero, if_pos hcond]
  rfl

/-- What `argnext` does with an argument that has letters. -/
theorem At.turns (h : At mem argv₀ s cur (a :: rest)) (htext : cur.text = [])
    (hletters : a.letters = some cur') :
    At mem argv₀ { s.shifted with argvalue := 0, curarg := s.argv 1 + 1 } cur' rest ∧
      argnext mem s =
        (if mem (s.argv 1 + 1) = 45#8 ∧ mem (s.argv 1 + 1 + 1) = 0#8 then
          (-1, { s.shifted with argvalue := 0, curarg := 0 })
        else argnext mem { s.shifted with argvalue := 0, curarg := s.argv 1 + 1 }) := by
  have hzero : mem s.curarg = 0#8 := h.text.head.mpr htext
  have hstr := (h.array.valid a List.mem_cons_self).2
  obtain ⟨hptr, htext', hne⟩ := letters_text hstr hletters
  have hsome : ¬ (mem (s.argv 1) ≠ 45#8 ∨ mem (s.argv 1 + 1) = 0#8) := by
    rw [h.array.next, letters_eq_none_iff hstr, hletters]
    exact fun heq => by cases heq
  have hcount : s.argc ≠ 1 := by
    have hlen := h.array.count
    rw [List.length_cons] at hlen
    omega
  have hfirst : mem (s.argv 1 + 1) ≠ 0#8 := fun heq => hsome (Or.inr heq)
  refine ⟨⟨h.array.shifted, Nat.succ_ne_zero _, ?_, fun _ => ?_⟩, ?_⟩
  · rw [h.array.next]
    exact htext'
  · rw [h.array.next]
    exact hptr.symm
  · unfold argnext
    dsimp only
    rw [if_neg h.going, if_pos hzero, if_neg (not_or.mpr ⟨hcount, hsome⟩),
      if_neg (Nat.succ_ne_zero (s.argv 1)), if_neg hfirst]
    rfl

theorem dashes_iff (hstr : IsStr mem p cs) (hne : cs ≠ []) :
    (mem p = 45#8 ∧ mem (p + 1) = 0#8) ↔ cs = [45#8] := by
  match cs, hstr with
  | [c], h =>
      have hc : mem p = c := h.2.1
      have hnul : mem (p + 1) = 0#8 := h.2.2
      rw [hc]
      exact ⟨fun hboth => by rw [hboth.1], fun heq => ⟨by cases heq; rfl, hnul⟩⟩
  | c :: d :: cs, h =>
      have hsecond : mem (p + 1) ≠ 0#8 := h.2.2.2.1.symm ▸ h.2.2.1
      exact ⟨fun hboth => absurd hboth.2 hsecond, fun heq => by cases heq⟩

/-! ## Values -/

/-- After a value has been taken, `argvalue` returns it again. -/
theorem argvalues_again (h : argvalue mem empty s = (v, s')) (hvalue : s'.argvalue = v)
    (hnull : v = 0 → s'.curarg = 0) (hn : n ≠ 0) :
    argvalues mem empty n s = (List.replicate n v, s') := by
  have hagain : argvalue mem empty s' = (v, s') := by
    unfold argvalue
    split
    · rw [hvalue]
    · rename_i hzero
      have hv : v = 0 := by
        rw [← hvalue]
        exact not_not.mp hzero
      unfold argnextvalue
      rw [if_pos (hnull hv), hv]
  have hmore : ∀ k, argvalues mem empty k s' = (List.replicate k v, s') := by
    intro k
    induction k with
    | zero => rfl
    | succ k ih =>
        rw [argvalues, hagain]
        dsimp only
        rw [ih, List.replicate_succ]
  obtain ⟨k, rfl⟩ := Nat.exists_eq_succ_of_ne_zero hn
  rw [argvalues, h]
  dsimp only
  rw [hmore, List.replicate_succ]

/-- The value is the rest of the argument. -/
theorem At.attached (h : At mem argv₀ s cur args) (hempty : empty ≠ 0 ∧ mem empty = 0#8)
    (hv : s.argvalue = 0) (hne : cur.text ≠ []) (hn : n ≠ 0) :
    ∃ s', argvalues mem empty n s = (List.replicate n cur.ptr, s') ∧
      At mem argv₀ s' Arg.none args := by
  have hptr := h.ptr hne
  have hchars : mem s.curarg ≠ 0#8 := fun hzero => hne (h.text.head.mp hzero)
  refine ⟨{ s with argvalue := s.curarg, curarg := empty },
    argvalues_again ?_ hptr (fun hzero => absurd (hptr.trans hzero) h.going) hn,
    h.array, hempty.1, hempty.2, fun hno => absurd rfl hno⟩
  unfold argvalue argnextvalue
  rw [if_neg (not_not.mpr hv), if_neg h.going, if_pos hchars, ← hptr]

/-- The value is the next argument. -/
theorem At.detached (h : At mem argv₀ s cur (a :: rest)) (hv : s.argvalue = 0)
    (htext : cur.text = []) (hn : n ≠ 0) :
    ∃ s', argvalues mem empty n s = (List.replicate n a.ptr, s') ∧
      At mem argv₀ s' Arg.none rest := by
  have hzero : mem s.curarg = 0#8 := h.text.head.mpr htext
  have hmore : 1 < s.argc := by
    rw [h.array.count, List.length_cons]
    omega
  have hptr := (h.array.valid a List.mem_cons_self).1
  refine ⟨{ s.shifted with argvalue := s.argv 1 },
    argvalues_again ?_ h.array.next (fun hnull => absurd hnull hptr) hn,
    h.array.shifted, h.going, hzero, fun hno => absurd rfl hno⟩
  unfold argvalue argnextvalue
  rw [if_neg (not_not.mpr hv), if_neg h.going, if_neg (not_not.mpr hzero), if_pos hmore,
    ← h.array.next]

/-- There is no value. -/
theorem At.valueless (h : At mem argv₀ s cur []) (hv : s.argvalue = 0)
    (htext : cur.text = []) (hn : n ≠ 0) :
    ∃ s', argvalues mem empty n s = (List.replicate n 0, s') ∧ Ended mem argv₀ s' [] := by
  have hzero : mem s.curarg = 0#8 := h.text.head.mpr htext
  have hlast : ¬ 1 < s.argc := by
    rw [h.array.count]
    decide
  refine ⟨{ s with argvalue := 0, curarg := 0 },
    argvalues_again ?_ rfl (fun _ => rfl) hn, h.array, rfl⟩
  unfold argvalue argnextvalue
  rw [if_neg (not_not.mpr hv), if_neg h.going, if_neg (not_not.mpr hzero), if_neg hlast]

/-! ## The end -/

theorem Ended.argnext (h : Ended mem argv₀ s args) :
    (Args.argnext mem s).1 = -1 ∧ Ended mem argv₀ (Args.argnext mem s).2 args ∧
      (Args.argnext mem s).2.argc = s.argc ∧ (Args.argnext mem s).2.argv = s.argv := by
  unfold Args.argnext
  dsimp only
  rw [if_pos h.done]
  exact ⟨rfl, ⟨h.array, h.done⟩, rfl, rfl⟩

theorem Ended.argvalue (h : Ended mem argv₀ s args) :
    (Args.argvalue mem empty s).2 = s := by
  unfold Args.argvalue argnextvalue
  split
  · rfl
  · rw [if_pos h.done]

/-- After the end nothing changes any more. -/
theorem Ended.calls (h : Ended mem argv₀ s args) (calls : List Call) :
    Ended mem argv₀ (calls.foldl (Argstate.call mem empty) s) args ∧
      (calls.foldl (Argstate.call mem empty) s).argc = s.argc ∧
      (calls.foldl (Argstate.call mem empty) s).argv = s.argv := by
  induction calls generalizing s with
  | nil => exact ⟨h, rfl, rfl⟩
  | cons call calls ih =>
      cases call with
      | next =>
          obtain ⟨-, hnext, hargc, hargv⟩ := h.argnext
          obtain ⟨hend, hargc', hargv'⟩ := ih hnext
          exact ⟨hend, hargc'.trans hargc, hargv'.trans hargv⟩
      | value =>
          have hsame : s.call mem empty .value = s := h.argvalue
          rw [List.foldl_cons, hsame]
          exact ih h

/-! ## All options -/

theorem Ended.options (h : Ended mem argv₀ s args) :
    ∃ s', Args.options mem empty asks 1 i s = some ([], s') ∧ Ended mem argv₀ s' args := by
  obtain ⟨hminus, hend, -, -⟩ := h.argnext
  refine ⟨_, ?_, hend⟩
  unfold Args.options
  dsimp only
  rw [if_pos hminus]

/-- What is left of the run of a program, from where the scanner is. -/
def Scans (mem : Nat → U8) (empty argv₀ : Nat) (asks : Nat → Nat) (i : Nat) (s : Argstate)
    (r : List (Int × List Nat) × List Arg) : Prop :=
  ∃ fuel s', Args.options mem empty asks fuel i s = some (r.1, s') ∧ Ended mem argv₀ s' r.2

/-- One result of `argnext`, its values, and the rest of the run. -/
theorem Scans.cons {s₁ s₂ : Argstate} {r : List (Int × List Nat) × List Arg} {vs : List Nat}
    (hnext : argnext mem s = ((c.toNat : Int), s₁))
    (hvalues : argvalues mem empty (asks i) s₁ = (vs, s₂))
    (hrest : Scans mem empty argv₀ asks (i + 1) s₂ r) :
    Scans mem empty argv₀ asks i s (((c.toNat : Int), vs) :: r.1, r.2) := by
  obtain ⟨fuel, s', hrun, hend⟩ := hrest
  refine ⟨fuel + 1, s', ?_, hend⟩
  have hletter : (c.toNat : Int) ≠ -1 := by omega
  rw [Args.options, hnext]
  dsimp only
  rw [if_neg hletter, hvalues]
  dsimp only
  rw [hrun]
  rfl

theorem At.scans (h : At mem argv₀ s cur args) (hempty : empty ≠ 0 ∧ mem empty = 0#8) :
    Scans mem empty argv₀ asks i s (scan asks i cur args) := by
  induction hsize : size cur args using Nat.strong_induction_on generalizing i s cur args with
  | _ n ih =>
      obtain ⟨ptr, text⟩ := cur
      cases text with
      | cons c cs =>
          obtain ⟨s₁, hnext, hzero, hat⟩ := h.letter rfl
          rw [scan.eq_def]
          dsimp only
          by_cases hasks : asks i = 0
          · -- the letter has no value
            rw [if_pos hasks, hasks]
            refine Scans.cons hnext (by rw [hasks]; rfl) (ih _ ?_ hat rfl)
            subst hsize
            simp [size]
          · rw [if_neg hasks]
            by_cases hcs : cs = []
            · rw [if_neg (not_not.mpr hcs)]
              cases args with
              | nil =>
                  obtain ⟨s₂, hvalues, hend⟩ := hat.valueless hzero hcs hasks
                  obtain ⟨s', hrun, hend'⟩ := hend.options
                  exact Scans.cons (r := ([], [])) hnext hvalues ⟨1, s', hrun, hend'⟩
              | cons a rest =>
                  obtain ⟨s₂, hvalues, hat₂⟩ := hat.detached hzero hcs hasks
                  refine Scans.cons hnext hvalues (ih _ ?_ hat₂ rfl)
                  subst hsize
                  simp [size, Arg.none]
                  omega
            · obtain ⟨s₂, hvalues, hat₂⟩ := hat.attached hempty hzero hcs hasks
              rw [if_pos hcs]
              refine Scans.cons hnext hvalues (ih _ ?_ hat₂ rfl)
              subst hsize
              simp [size, Arg.none]
      | nil =>
          have hstop : ∀ s' args', argnext mem s = (-1, s') → Ended mem argv₀ s' args' →
              Scans mem empty argv₀ asks i s ([], args') := by
            intro s' args' hnext hend
            refine ⟨1, s', ?_, hend⟩
            rw [Args.options, hnext]
            rfl
          cases args with
          | nil =>
              obtain ⟨s', hnext, hend⟩ := h.stops rfl (Or.inl rfl)
              rw [scan_end]
              exact hstop s' [] hnext hend
          | cons a rest =>
              cases hletters : a.letters with
              | none =>
                  obtain ⟨s', hnext, hend⟩ := h.stops rfl (Or.inr ⟨a, rest, rfl, hletters⟩)
                  rw [scan_argument, hletters]
                  exact hstop s' (a :: rest) hnext hend
              | some cur =>
                  obtain ⟨hat, hnext⟩ := h.turns rfl hletters
                  obtain ⟨-, hstr, hne⟩ := letters_text
                    (h.array.valid a List.mem_cons_self).2 hletters
                  rw [← h.array.next] at hstr
                  rw [scan_argument, hletters]
                  dsimp only
                  by_cases hdashes : cur.text = [45#8]
                  · rw [if_pos ((dashes_iff hstr hne).mpr hdashes)] at hnext
                    rw [if_pos hdashes]
                    exact hstop _ rest hnext ⟨h.array.shifted, rfl⟩
                  · -- the letters of the next argument are scanned instead
                    rw [if_neg (fun hboth => hdashes ((dashes_iff hstr hne).mp hboth))] at hnext
                    rw [if_neg hdashes]
                    have hless : size cur rest < n := by
                      have hlt := Arg.letters_length hletters
                      subst hsize
                      simp only [size, List.map_cons, List.sum_cons, List.length_nil]
                      omega
                    obtain ⟨fuel, s', hrun, hend⟩ := ih _ hless (i := i) hat rfl
                    cases fuel with
                    | zero => cases hrun
                    | succ fuel =>
                        refine ⟨fuel + 1, s', ?_, hend⟩
                        rw [Args.options, ← hnext] at hrun
                        exact hrun

theorem Holds.start {argc : Nat} {argv : Nat → Nat} (h : Holds mem argv₀ argc argv args)
    (hempty : empty ≠ 0 ∧ mem empty = 0#8) :
    Scans mem empty argv₀ asks 0 (argstart empty argc argv) (scan asks 0 Arg.none args) := by
  cases args with
  | nil =>
      have hover : (argstart empty argc argv).curarg = 0 := if_neg (by rw [h.count]; decide)
      have hend : Ended mem argv₀ (argstart empty argc argv) [] := ⟨h, hover⟩
      rw [Arg.none, scan_end]
      exact ⟨1, hend.options⟩
  | cons a rest =>
      have hgoing : (argstart empty argc argv).curarg = empty :=
        if_pos (by rw [h.count, List.length_cons]; omega)
      have hat : At mem argv₀ (argstart empty argc argv) Arg.none (a :: rest) :=
        ⟨h, hgoing.symm ▸ hempty.1, hgoing.symm ▸ hempty.2, fun hno => absurd rfl hno⟩
      exact hat.scans hempty

end

/-- The results of `argnext` and `argvalue` are those of the scanner, the array holds the
arguments that the scanner leaves, and after the end `argnext` returns -1 for ever. -/
theorem argnext_scans (mem : Nat → U8) (empty argv₀ argc : Nat) (argv : Nat → Nat)
    (args : List Arg) (hempty : empty ≠ 0 ∧ mem empty = 0#8)
    (h : Holds mem argv₀ argc argv args) (asks : Nat → Nat) :
    ∃ fuel s, options mem empty asks fuel 0 (argstart empty argc argv)
        = some ((scan asks 0 Arg.none args).1, s) ∧
      Holds mem argv₀ s.argc s.argv (scan asks 0 Arg.none args).2 ∧
      ∀ calls : List Call,
        (argnext mem (calls.foldl (Argstate.call mem empty) s)).1 = -1 ∧
        (calls.foldl (Argstate.call mem empty) s).argc = s.argc ∧
        (calls.foldl (Argstate.call mem empty) s).argv = s.argv := by
  obtain ⟨fuel, s, hrun, hend⟩ : Scans mem empty argv₀ asks 0 (argstart empty argc argv)
      (scan asks 0 Arg.none args) := h.start hempty
  refine ⟨fuel, s, hrun, hend.array, fun calls => ?_⟩
  have hafter : Ended mem argv₀ (calls.foldl (Argstate.call mem empty) s) _ ∧ _ := hend.calls calls
  exact ⟨hafter.1.argnext.1, hafter.2⟩

/-- A memory with the empty string at 1, and `-fv` and `x`. -/
def someStrings (p : Nat) : U8 :=
  [0#8, 0#8, 45#8, 102#8, 118#8, 0#8, 120#8, 0#8].getD p 0#8

/-- The command line `sh -fv x`. -/
def someArgs : List Arg := [⟨2, [45#8, 102#8, 118#8]⟩, ⟨6, [120#8]⟩]

theorem someArgs_holds : Holds someStrings 8 3 (fun i => [8, 2, 6, 0].getD i 0) someArgs where
  count := rfl
  first := rfl
  each := fun i a h => match i, h with
    | 0, rfl => rfl
    | 1, rfl => rfl
  null := rfl
  valid := fun a ha => by
    rcases List.mem_pair.mp ha with rfl | rfl
    · exact ⟨by decide, by decide, rfl, by decide, rfl, by decide, rfl, rfl⟩
    · exact ⟨by decide, by decide, rfl, rfl⟩

theorem someArgs_scan :
    scan (fun _ => 2) 0 Arg.none someArgs = ([(102, [4, 4])], [⟨6, [120#8]⟩]) := by
  have hrest : scan (fun _ => 2) 1 ⟨0, []⟩ [⟨6, [120#8]⟩] = ([], [⟨6, [120#8]⟩]) := by
    rw [scan_argument]
    rfl
  have hletters : (⟨2, [45#8, 102#8, 118#8]⟩ : Arg).letters = some ⟨3, [102#8, 118#8]⟩ := rfl
  rw [Arg.none, someArgs, scan_argument, hletters]
  dsimp only
  rw [if_neg (by decide), scan.eq_def]
  simp [Arg.none, hrest]

/-- The value of an option in its own argument. -/
theorem argnext_scans_attached :
    ∃ fuel s, options someStrings 1 (fun _ => 2) fuel 0
        (argstart 1 3 (fun i => [8, 2, 6, 0].getD i 0)) = some ([(102, [4, 4])], s) ∧
      s.argc = 2 := by
  obtain ⟨fuel, s, hrun, hleft, -⟩ :=
    argnext_scans someStrings 1 8 3 _ someArgs (by decide) someArgs_holds (fun _ => 2)
  rw [someArgs_scan] at hrun hleft
  exact ⟨fuel, s, hrun, hleft.count⟩

end Args
end Jos

import Jos.Lib.WhileLoop
import Jos.ShellTokens

/-!
# The buffers of the shell, `runcmd` of `user/sh.c`

`runcmd` collects the words of a command in `argv`, and puts `/` in front of the first one
in `argv0buf`.  What `open`, `pipe` and `fork` return is given from outside, so that a run
is that of any of the processes that a line makes.  Every index that is written is noted.
-/

namespace Jos

namespace Shell

open WhileLoop

/-- `MAXARGS`. -/
def maxargs : Nat := 16

/-- `BUFSIZ`. -/
def bufsiz : Nat := 1024

/-- A case of the `switch`. -/
def code (c : Char) : Int := c.toNat

/-- The places where the loop of `runcmd` is left. -/
inductive Place where
  | parsing
  | runit
  | returned
  | exited
  | panicked
deriving DecidableEq

/-- The variables of `runcmd`, and what the next calls of `open`, `pipe` and `fork` return. -/
structure Runcmd where
  lexer : Lexer
  argc : Nat
  argv : Nat → Nat
  wroteArgv : List Nat
  wroteBuf : List Nat
  answers : Nat → Int
  place : Place

namespace Runcmd

/-- `argv[i] = t`. -/
def setArgv (st : Runcmd) (i t : Nat) : Runcmd :=
  { st with argv := Function.update st.argv i t, wroteArgv := i :: st.wroteArgv }

/-- That many calls have returned. -/
def called (st : Runcmd) (n : Nat) : Runcmd :=
  { st with answers := fun k => st.answers (k + n) }

def leave (st : Runcmd) (p : Place) : Runcmd := { st with place := p }

/-- A word of the command. -/
def addWord (st : Runcmd) (t : Nat) : Runcmd :=
  { st.setArgv st.argc t with argc := st.argc + 1 }

/-- `<` and `>`: the word that follows is opened. -/
def redirect (fuel : Nat) (st : Runcmd) : Option Runcmd :=
  (st.lexer.gettoken fuel 0).map fun (l, c, _) =>
    if c ≠ wordCode then { st with lexer := l, place := .exited }
    else if st.answers 0 < 0 then { st with lexer := l, place := .exited }
    else { st.called 1 with lexer := l }

/-- `|`: the child starts again, and the parent runs what it has. -/
def pipe (st : Runcmd) : Runcmd :=
  if st.answers 0 < 0 then st.leave .exited
  -- fork
  else if st.answers 1 < 0 then st.leave .exited
  else if st.answers 1 = 0 then { st.called 2 with argc := 0 }
  else st.leave .runit

/-- One turn of the loop of `runcmd`. -/
def turn (fuel : Nat) (st : Runcmd) : Option Runcmd :=
  (st.lexer.gettoken fuel 0).bind fun (l, c, t) =>
    let st := { st with lexer := l }
    if c = wordCode then
      -- too many arguments
      if st.argc = maxargs then some (st.leave .exited) else some (st.addWord t)
    else if c = code '<' ∨ c = code '>' then st.redirect fuel
    else if c = code '|' then some st.pipe
    else if c = 0 then some (st.leave .runit)
    else some (st.leave .panicked)

/-- `strcpy(argv0buf + i, src)`: the indices that it writes. -/
def strcpy (m : Mem) : Nat → Nat → Nat → Option (List Nat)
  | 0, _, _ => none
  | fuel + 1, src, i => do
      let c ← m src
      if c = 0#8 then some [i]
      else (strcpy m fuel (src + 1) (i + 1)).map (fun is => i :: is)

/-- `runit`. -/
def runit (argv0buf fuel : Nat) (st : Runcmd) : Option Runcmd :=
  if st.argc = 0 then some (st.leave .returned)
  else do
    let c ← st.lexer.mem (st.argv 0)
    if c ≠ byte '/' then do
      let is ← strcpy st.lexer.mem fuel (st.argv 0) 1
      let st := { st with wroteBuf := is ++ 0 :: st.wroteBuf }.setArgv 0 argv0buf
      some ((st.setArgv st.argc 0).leave .exited)
    else some ((st.setArgv st.argc 0).leave .exited)

end Runcmd

/-- `runcmd(s)`, with `argv0buf` at that address. -/
def runcmd (argv0buf fuel : Nat) (l : Lexer) (answers : Nat → Int) (s : Nat) : Option Runcmd := do
  let (l, _, _) ← l.gettoken fuel s
  let st ← whileLoop (fun st => st.place = .parsing) (Runcmd.turn fuel) fuel
    ⟨l, 0, fun _ => 0, [], [], answers, .parsing⟩
  if st.place = .runit then st.runit argv0buf fuel else some st

/-- `argv` and `argv0buf` have been written at their own indices only. -/
def Runcmd.InBounds (st : Runcmd) : Prop :=
  (∀ i, i ∈ st.wroteArgv → i < maxargs) ∧ ∀ i, i ∈ st.wroteBuf → i < bufsiz

/-! ## The commands of a line -/

/-- The words of the command that a process runs, when the calls return this. -/
def commandOf (args : List (List U8)) : List Token → (Nat → Int) → Option (List (List U8))
  | [], _ => some args
  | .word w :: toks, answers =>
      if args.length = maxargs then none else commandOf (args ++ [w]) toks answers
  | .symbol c :: toks, answers =>
      if c = byte '<' ∨ c = byte '>' then
        match toks with
        | .word _ :: rest =>
            if answers 0 < 0 then none else commandOf args rest (fun k => answers (k + 1))
        | _ => none
      else if c = byte '|' then
        if answers 0 < 0 then none
        else if answers 1 < 0 then none
        else if answers 1 = 0 then commandOf [] toks (fun k => answers (k + 2))
        else some args
      else none

/-- The commands that are run by the processes of a line, when all calls succeed. -/
def commands (args : List (List U8)) : List Token → List (List (List U8))
  | [] => [args]
  | .word w :: toks => if args.length = maxargs then [] else commands (args ++ [w]) toks
  | .symbol c :: toks =>
      if c = byte '<' ∨ c = byte '>' then
        match toks with
        | .word _ :: rest => commands args rest
        | _ => []
      else if c = byte '|' then args :: commands [] toks
      else []

/-- There is room for the command in `argv`, and for its name in `argv0buf`. -/
def Fits (args : List (List U8)) : Prop :=
  args.length ≠ maxargs ∧
    ∀ w, args.head? = some w → w.head? = some (byte '/') ∨ w.length + 2 ≤ bufsiz

theorem commands_pipe (args : List (List U8)) (toks : List Token) :
    commands args (.symbol (byte '|') :: toks) = args :: commands [] toks := by
  rw [commands.eq_def]
  exact (if_neg (by decide)).trans (if_pos rfl)

theorem commandOf_pipe (args : List (List U8)) (toks : List Token) (answers : Nat → Int) :
    commandOf args (.symbol (byte '|') :: toks) answers =
      if answers 0 < 0 then none
      else if answers 1 < 0 then none
      else if answers 1 = 0 then commandOf [] toks (fun k => answers (k + 2))
      else some args := by
  rw [commandOf.eq_def]
  exact (if_neg (by decide)).trans (if_pos rfl)

/-- The command, behind a `<` or `>`. -/
def commandBehind (args : List (List U8)) : List Token → (Nat → Int) → Option (List (List U8))
  | .word _ :: rest, answers =>
      if answers 0 < 0 then none else commandOf args rest (fun k => answers (k + 1))
  | _, _ => none

theorem commandOf_redirect {c : U8} (hc : c = byte '<' ∨ c = byte '>') (args : List (List U8))
    (toks : List Token) (answers : Nat → Int) :
    commandOf args (.symbol c :: toks) answers = commandBehind args toks answers := by
  rw [commandOf.eq_def]
  refine (if_pos hc).trans ?_
  cases toks with
  | nil => rfl
  | cons tok rest => cases tok <;> rfl

theorem commandOf_other {c : U8} (hc : ¬ (c = byte '<' ∨ c = byte '>')) (hpipe : c ≠ byte '|')
    (args : List (List U8)) (toks : List Token) (answers : Nat → Int) :
    commandOf args (.symbol c :: toks) answers = none := by
  rw [commandOf.eq_def]
  exact (if_neg hc).trans (if_neg hpipe)

/-- A process runs one of the commands of the line. -/
theorem commandOf_mem {args c : List (List U8)} {toks : List Token} {answers : Nat → Int}
    (h : commandOf args toks answers = some c) : c ∈ commands args toks := by
  fun_induction commandOf args toks answers with
  | case1 args answers => simpa [commands] using h.symm
  | case2 => cases h
  | case3 args answers w toks hlen ih =>
      rw [commands, if_neg hlen]
      exact ih h
  | case4 => cases h
  | case5 args answers c hredirect w rest hopen ih =>
      rw [commands, if_pos hredirect]
      exact ih h
  | case6 => cases h
  | case7 => cases h
  | case8 => cases h
  | case9 args toks answers _ _ _ _ ih =>
      rw [commands_pipe]
      exact List.mem_cons_of_mem _ (ih h)
  | case10 args toks answers _ _ _ _ =>
      rw [commands_pipe]
      obtain rfl := Option.some.inj h
      exact List.mem_cons_self
  | case11 => cases h

/-- Answers with some in front. -/
def before (as : List Int) (answers : Nat → Int) : Nat → Int := fun k =>
  as.getD k (answers (k - as.length))

/-- Each command of a line is run by some process, if the calls succeed. -/
theorem exists_commandOf {args c : List (List U8)} {toks : List Token}
    (h : c ∈ commands args toks) :
    ∃ answers, commandOf args toks answers = some c := by
  fun_induction commands args toks with
  | case1 args => exact ⟨fun _ => 0, by rw [List.mem_singleton.mp h]; rfl⟩
  | case2 => cases h
  | case3 args w toks hlen ih =>
      obtain ⟨answers, hc⟩ := ih h
      exact ⟨answers, by rw [commandOf, if_neg hlen, hc]⟩
  | case4 args c' hredirect w rest ih =>
      obtain ⟨answers, hc⟩ := ih h
      refine ⟨before [0] answers, ?_⟩
      rw [commandOf, if_pos hredirect]
      exact hc
  | case5 => cases h
  | case6 args toks _ ih =>
      rcases List.mem_cons.mp h with rfl | hmem
      · -- the parent
        refine ⟨fun _ => 1, ?_⟩
        rw [commandOf_pipe]
        rfl
      · obtain ⟨answers, hc⟩ := ih hmem
        refine ⟨before [0, 0] answers, ?_⟩
        rw [commandOf_pipe]
        exact hc
  | case7 => cases h

/-! ## The loop -/

/-- A string that `strcpy` gets to the end of. -/
def ShortWord (fuel : Nat) (w : List U8) : Prop := NoNul w ∧ w.length < fuel

/-- What is known of a token. -/
def TokenOk (fuel : Nat) : Token → Prop
  | .word w => ShortWord fuel w
  | .symbol c => c ∈ symbols

theorem tokens_ok {fuel : Nat} {cs : List U8} (h : NoNul cs) (hlen : cs.length < fuel) :
    ∀ tok, tok ∈ tokens cs → TokenOk fuel tok := by
  fun_induction tokens cs with
  | case1 => nofun
  | case2 c cs _ ih =>
      rw [List.length_cons] at hlen
      exact ih (fun c' hc' => h c' (List.mem_cons_of_mem _ hc')) (by omega)
  | case3 c cs _ hsymbol ih =>
      intro tok htok
      rw [List.length_cons] at hlen
      rcases List.mem_cons.mp htok with rfl | hrest
      · obtain ⟨d, hd, heq⟩ := List.any_eq_true.mp hsymbol
        obtain rfl := of_decide_eq_true heq
        exact hd
      · exact ih (fun c' hc' => h c' (List.mem_cons_of_mem _ hc')) (by omega) tok hrest
  | case4 c cs _ _ ih =>
      intro tok htok
      rw [List.length_cons] at hlen
      have htake := (List.takeWhile_sublist (p := ordinary) (l := cs)).length_le
      have hdrop := (List.dropWhile_sublist (p := ordinary) (l := cs)).length_le
      rcases List.mem_cons.mp htok with rfl | hrest
      · refine ⟨fun c' hc' => ?_, by rw [List.length_cons]; omega⟩
        rcases List.mem_cons.mp hc' with rfl | hmem
        · exact h _ List.mem_cons_self
        · exact h c' (List.mem_cons_of_mem _ ((List.takeWhile_sublist _).mem hmem))
      · exact ih (fun c' hc' => h c' (List.mem_cons_of_mem _ ((List.dropWhile_sublist _).mem hc')))
          (by omega) tok hrest

theorem tokens_length_le (cs : List U8) : (tokens cs).length ≤ cs.length := by
  fun_induction tokens cs with
  | case1 => exact Nat.le_refl _
  | case2 c cs _ ih => exact Nat.le_succ_of_le ih
  | case3 c cs _ _ ih => exact Nat.succ_le_succ ih
  | case4 c cs _ _ ih =>
      have hdrop := (List.dropWhile_sublist (p := ordinary) (l := cs)).length_le
      exact Nat.succ_le_succ (Nat.le_trans ih hdrop)

theorem symbol_code {c : U8} (h : c ∈ symbols) : c.toInt ≠ wordCode ∧ c.toInt ≠ 0 ∧
    (c.toInt = code '<' ↔ c = byte '<') ∧ (c.toInt = code '>' ↔ c = byte '>') ∧
    (c.toInt = code '|' ↔ c = byte '|') := by
  have hall : ∀ c, c ∈ symbols → c.toInt ≠ wordCode ∧ c.toInt ≠ 0 ∧
      (c.toInt = code '<' ↔ c = byte '<') ∧ (c.toInt = code '>' ↔ c = byte '>') ∧
      (c.toInt = code '|' ↔ c = byte '|') := by decide
  exact hall c h

/-- The words of the command are in `argv`, and nothing has been written outside. -/
structure Held (fuel : Nat) (st : Runcmd) (args : List (List U8)) : Prop where
  argc : st.argc = args.length
  le : args.length ≤ maxargs
  words : ∀ i w, args[i]? = some w → st.lexer.Returned (st.argv i) w ∧ ShortWord fuel w
  wrote : ∀ i, i ∈ st.wroteArgv → i < maxargs
  buf : st.wroteBuf = []

/-- The loop goes on with these tokens. -/
structure Parsing (fuel b e : Nat) (st : Runcmd) (args : List (List U8)) (toks : List Token) :
    Prop extends Held fuel st args where
  place : st.place = .parsing
  pending : st.lexer.Pending b e toks
  ok : ∀ tok, tok ∈ toks → TokenOk fuel tok

/-- Where a turn leads, when the process is to run this command and `n` tokens were left. -/
def Reaches (fuel b e : Nat) (st : Runcmd) (target : Option (List (List U8))) (n : Nat) : Prop :=
  (∃ args toks, Parsing fuel b e st args toks ∧ toks.length < n ∧
    commandOf args toks st.answers = target) ∨
  (st.place = .runit ∧ ∃ args, Held fuel st args ∧ target = some args) ∨
  (st.place ≠ .parsing ∧ st.place ≠ .runit ∧ target = none ∧ st.InBounds)

section Loop

variable {b e fuel : Nat} {st : Runcmd} {args : List (List U8)} {toks : List Token}

theorem Held.inBounds (h : Held fuel st args) : st.InBounds :=
  ⟨h.wrote, fun i hi => by rw [h.buf] at hi; cases hi⟩

/-- Another call of `gettoken` keeps the words. -/
theorem Held.lexer (h : Held fuel st args) {l : Lexer} (hnext : st.lexer.Next fuel l b e toks) :
    Held fuel { st with lexer := l } args :=
  ⟨h.argc, h.le, fun i w hw => ⟨hnext.returned _ _ (h.words i w hw).1, (h.words i w hw).2⟩,
    h.wrote, h.buf⟩

theorem Held.leave (h : Held fuel st args) (p : Place) : Held fuel (st.leave p) args :=
  ⟨h.argc, h.le, h.words, h.wrote, h.buf⟩

/-- A word is added. -/
theorem Held.addWord (h : Held fuel st args) (hlt : args.length ≠ maxargs) {t : Nat} {w : List U8}
    (hw : st.lexer.Returned t w) (hnul : ShortWord fuel w) :
    Held fuel (st.addWord t) (args ++ [w]) := by
  have hle := h.le
  refine ⟨?_, ?_, fun i w' hw' => ?_, fun i hi => ?_, h.buf⟩
  · show st.argc + 1 = _
    rw [h.argc, List.length_append]
    rfl
  · rw [List.length_append, List.length_singleton]
    omega
  · show st.lexer.Returned (Function.update st.argv st.argc t i) w' ∧ _
    by_cases hi : i = st.argc
    · subst hi
      rw [h.argc, List.getElem?_append_right (Nat.le_refl _), Nat.sub_self] at hw'
      obtain rfl := Option.some.inj hw'
      rw [Function.update_self]
      exact ⟨hw, hnul⟩
    · rw [Function.update_of_ne hi]
      have hlen := (List.getElem?_eq_some_iff.mp hw').1
      rw [List.length_append, List.length_singleton] at hlen
      rw [h.argc] at hi
      rw [List.getElem?_append_left (by omega)] at hw'
      exact h.words i w' hw'
  · rcases List.mem_cons.mp hi with rfl | hi
    · rw [h.argc]
      omega
    · exact h.wrote i hi

/-- The process leaves. -/
theorem Held.reaches_left (h : Held fuel st args) {p : Place} (hparsing : p ≠ .parsing)
    (hrunit : p ≠ .runit) (n : Nat) : Reaches fuel b e (st.leave p) none n :=
  Or.inr (Or.inr ⟨hparsing, hrunit, rfl, (h.leave p).inBounds⟩)

/-- `<` or `>`. -/
theorem redirect_spec (h : Parsing fuel b e st args toks) (hfuel : e < b + fuel) :
    ∃ st', st.redirect fuel = some st' ∧
      Reaches fuel b e st' (commandBehind args toks st.answers) (toks.length + 1) := by
  obtain ⟨l, hnext⟩ := gettoken_spec h.pending hfuel
  have hheld := h.toHeld.lexer hnext
  unfold Runcmd.redirect
  rw [hnext.run, Option.map_some]
  refine ⟨_, rfl, ?_⟩
  dsimp only
  have hexit := hheld.reaches_left (b := b) (e := e) (p := .exited) (by decide) (by decide)
    (toks.length + 1)
  cases toks with
  | nil =>
      rw [if_pos (show tokenCode ([] : List Token).head? ≠ wordCode by decide)]
      exact hexit
  | cons tok rest =>
      cases tok with
      | symbol c =>
          have hc := symbol_code (h.ok _ List.mem_cons_self)
          rw [if_pos (show tokenCode (Token.symbol c :: rest).head? ≠ wordCode from hc.1)]
          exact hexit
      | word w =>
          rw [if_neg (show ¬ tokenCode (Token.word w :: rest).head? ≠ wordCode from
            fun hne => hne rfl)]
          by_cases hopen : st.answers 0 < 0
          · rw [if_pos hopen, commandBehind, if_pos hopen]
            exact hexit
          · rw [if_neg hopen, commandBehind, if_neg hopen]
            refine Or.inl ⟨args, rest,
              ⟨⟨hheld.argc, hheld.le, hheld.words, hheld.wrote, hheld.buf⟩, h.place, hnext.pending,
                fun tok htok => h.ok tok (List.mem_cons_of_mem _ htok)⟩, ?_, rfl⟩
            rw [List.length_cons]
            omega

/-- `|`. -/
theorem pipe_spec (h : Parsing fuel b e st args toks) :
    Reaches fuel b e st.pipe (if st.answers 0 < 0 then none
      else if st.answers 1 < 0 then none
      else if st.answers 1 = 0 then commandOf [] toks (fun k => st.answers (k + 2))
      else some args) (toks.length + 1) := by
  have hexit := h.toHeld.reaches_left (b := b) (e := e) (p := .exited) (by decide) (by decide)
    (toks.length + 1)
  unfold Runcmd.pipe
  split
  · exact hexit
  · split
    · exact hexit
    · split
      · -- the child has no words yet
        exact Or.inl ⟨[], toks, ⟨⟨rfl, Nat.zero_le _, nofun, h.wrote, h.buf⟩, h.place, h.pending,
          h.ok⟩, Nat.lt_succ_self _, rfl⟩
      · exact Or.inr (Or.inl ⟨rfl, args, h.toHeld.leave _, rfl⟩)

theorem turn_spec (h : Parsing fuel b e st args toks) (hfuel : e < b + fuel) :
    ∃ st', st.turn fuel = some st' ∧
      Reaches fuel b e st' (commandOf args toks st.answers) toks.length := by
  obtain ⟨l, hnext⟩ := gettoken_spec h.pending hfuel
  have hheld := h.toHeld.lexer hnext
  unfold Runcmd.turn
  rw [hnext.run, Option.bind_some]
  dsimp only
  cases toks with
  | nil =>
      exact ⟨_, rfl, Or.inr (Or.inl ⟨rfl, args, hheld.leave _, rfl⟩)⟩
  | cons tok rest =>
      have hrest : Parsing fuel b e { st with lexer := l } args rest :=
        ⟨hheld, h.place, hnext.pending, fun tok htok => h.ok tok (List.mem_cons_of_mem _ htok)⟩
      cases tok with
      | word w =>
          rw [if_pos (show tokenCode (Token.word w :: rest).head? = wordCode from rfl), commandOf]
          have hmax : st.argc = maxargs ↔ args.length = maxargs := by rw [h.argc]
          by_cases hfull : args.length = maxargs
          · rw [if_pos (hmax.mpr hfull), if_pos hfull]
            exact ⟨_, rfl, hheld.reaches_left (by decide) (by decide) _⟩
          · rw [if_neg (fun hh => hfull (hmax.mp hh)), if_neg hfull]
            have hadd := hheld.addWord hfull (hnext.word w rfl) (h.ok _ List.mem_cons_self)
            refine ⟨_, rfl, Or.inl ⟨args ++ [w], rest, ⟨hadd, h.place, hnext.pending, hrest.ok⟩,
              ?_, rfl⟩⟩
            rw [List.length_cons]
            omega
      | symbol c =>
          obtain ⟨hword, hzero, hlt, hgt, hpipe⟩ := symbol_code (h.ok _ List.mem_cons_self)
          rw [if_neg (show ¬ tokenCode (Token.symbol c :: rest).head? = wordCode from hword)]
          have hcases : (tokenCode (Token.symbol c :: rest).head? = code '<' ∨
              tokenCode (Token.symbol c :: rest).head? = code '>') ↔
              (c = byte '<' ∨ c = byte '>') := or_congr hlt hgt
          by_cases hredirect : c = byte '<' ∨ c = byte '>'
          · rw [if_pos (hcases.mpr hredirect), commandOf_redirect hredirect]
            exact redirect_spec hrest hfuel
          · rw [if_neg (fun hh => hredirect (hcases.mp hh))]
            by_cases hp : c = byte '|'
            · rw [if_pos
                  (show tokenCode (Token.symbol c :: rest).head? = code '|' from hpipe.mpr hp),
                hp, commandOf_pipe]
              exact ⟨_, rfl, pipe_spec hrest⟩
            · rw [if_neg (show ¬ tokenCode (Token.symbol c :: rest).head? = code '|' from
                fun hh => hp (hpipe.mp hh)),
                if_neg (show ¬ tokenCode (Token.symbol c :: rest).head? = 0 from hzero),
                commandOf_other hredirect hp]
              exact ⟨_, rfl, hheld.reaches_left (by decide) (by decide) _⟩

/-- Where the loop ends, when the process is to run this command. -/
def Leaves (fuel : Nat) (st : Runcmd) (target : Option (List (List U8))) : Prop :=
  (st.place = .runit ∧ ∃ args, Held fuel st args ∧ target = some args) ∨
  (st.place ≠ .parsing ∧ st.place ≠ .runit ∧ target = none ∧ st.InBounds)

theorem loop_spec {n : Nat} (h : Parsing fuel b e st args toks) (hfuel : e < b + fuel)
    (hn : toks.length + 1 < n) :
    ∃ st', whileLoop (fun st => st.place = .parsing) (Runcmd.turn fuel) n st = some st' ∧
      Leaves fuel st' (commandOf args toks st.answers) := by
  induction n generalizing st args toks with
  | zero => omega
  | succ n ih =>
      obtain ⟨st', hturn, hreach⟩ := turn_spec h hfuel
      rw [whileLoop, if_pos h.place, hturn, Option.bind_some]
      rcases hreach with ⟨args', toks', hparsing, hlen, htarget⟩ | hleaves
      · rw [← htarget]
        exact ih hparsing (by omega)
      · obtain ⟨n, rfl⟩ := Nat.exists_eq_succ_of_ne_zero (by omega : n ≠ 0)
        have hdone : st'.place ≠ .parsing := by
          rcases hleaves with ⟨hplace, -⟩ | ⟨hplace, -⟩
          · rw [hplace]
            decide
          · exact hplace
        exact ⟨st', by rw [whileLoop, if_neg hdone], hleaves⟩

end Loop

/-! ## The end of `runcmd` -/

theorem strcpy_spec {m : Mem} {p i fuel : Nat} {w : List U8} (h : StringAt m p w)
    (hw : ShortWord fuel w) :
    Runcmd.strcpy m fuel p i = some (List.range' i (w.length + 1)) := by
  obtain ⟨hnul, hlen⟩ := hw
  induction w generalizing fuel p i with
  | nil =>
      obtain ⟨fuel, rfl⟩ := Nat.exists_eq_succ_of_ne_zero (by omega : fuel ≠ 0)
      rw [Runcmd.strcpy, show m p = some 0#8 from h.2]
      rfl
  | cons c w ih =>
      rw [List.length_cons] at hlen
      obtain ⟨fuel, rfl⟩ := Nat.exists_eq_succ_of_ne_zero (by omega : fuel ≠ 0)
      obtain ⟨hc, hrest⟩ := StringAt.cons_iff.mp h
      rw [Runcmd.strcpy, hc]
      simp only [Option.bind_eq_bind, Option.bind_some, if_neg (hnul c List.mem_cons_self)]
      rw [ih hrest (fun c' hc' => hnul c' (List.mem_cons_of_mem _ hc')) (by omega)]
      rfl

/-- The first character of a string, or its `NUL`. -/
theorem StringAt.first {m : Mem} {p : Nat} {w : List U8} (h : StringAt m p w) :
    m p = some (w.head?.getD 0#8) := by
  cases w with
  | nil => exact h.2
  | cons c w => exact h.1.1

theorem runit_spec {fuel argv0buf : Nat} {st : Runcmd} {args : List (List U8)}
    (h : Held fuel st args) :
    ∃ st', st.runit argv0buf fuel = some st' ∧ (st'.InBounds ↔ Fits args) := by
  have hargc := h.argc
  have hle := h.le
  unfold Runcmd.runit
  cases args with
  | nil =>
      rw [if_pos (show st.argc = 0 from hargc)]
      exact ⟨_, rfl, iff_of_true (h.leave _).inBounds ⟨by decide, nofun⟩⟩
  | cons w args =>
      obtain ⟨hret, hword⟩ := h.words 0 w rfl
      rw [if_neg (by rw [hargc]; exact Nat.succ_ne_zero _), hret.1.first]
      simp only [Option.bind_eq_bind, Option.bind_some]
      have hmax : st.argc < maxargs ↔ (w :: args).length ≠ maxargs := by
        rw [hargc]
        omega
      have hslash : w.head?.getD 0#8 = byte '/' ↔ w.head? = some (byte '/') := by
        cases w with
        | nil => exact iff_of_false (by decide) nofun
        | cons c w => simp
      have hargv : ∀ is : List Nat, (∀ i, i ∈ is → i < maxargs) →
          ((∀ i, i ∈ st.argc :: is → i < maxargs) ↔ (w :: args).length ≠ maxargs) := by
        intro is his
        rw [← hmax]
        refine ⟨fun hall => hall _ List.mem_cons_self, fun hlt i hi => ?_⟩
        rcases List.mem_cons.mp hi with rfl | hi
        · exact hlt
        · exact his i hi
      by_cases hc : w.head?.getD 0#8 = byte '/'
      · rw [if_neg (fun hne => hne hc)]
        refine ⟨_, rfl, and_congr (hargv _ h.wrote)
          (iff_of_true h.inBounds.2 (fun w' hw' => ?_))⟩
        obtain rfl := Option.some.inj hw'
        exact Or.inl (hslash.mp hc)
      · rw [if_pos hc, strcpy_spec hret.1 hword]
        have hzero : ∀ i, i ∈ 0 :: st.wroteArgv → i < maxargs := by
          intro i hi
          rcases List.mem_cons.mp hi with rfl | hi
          · decide
          · exact h.wrote i hi
        refine ⟨_, rfl, and_congr (hargv _ hzero) ⟨fun hall w' hw' => ?_, fun hfits i hi => ?_⟩⟩
        · obtain rfl := Option.some.inj hw'
          have hlast : 1 + w.length ∈ List.range' 1 (w.length + 1) := by
            rw [List.mem_range'_1]
            omega
          have hlt := hall _ (List.mem_append_left _ hlast)
          exact Or.inr (by omega)
        · have hlen : w.length + 2 ≤ bufsiz :=
            (hfits w rfl).resolve_left (fun hh => hc (hslash.mpr hh))
          rcases List.mem_append.mp hi with hi | hi
          · have := List.mem_range'_1.mp hi
            omega
          · rcases List.mem_cons.mp hi with rfl | hi
            · decide
            · exact h.inBounds.2 i hi

/-- A run of `runcmd` stays inside its buffers exactly when there is room for the command that
it runs. -/
theorem runcmd_inBounds_iff (argv0buf fuel : Nat) (l : Lexer) (answers : Nat → Int) (s : Nat)
    (line : List U8) (hs : s ≠ 0) (hstr : StringAt l.mem s line) (hnul : NoNul line)
    (hfuel : line.length + 1 < fuel) :
    ∃ st, runcmd argv0buf fuel l answers s = some st ∧
      (st.InBounds ↔ ∀ args, commandOf [] (tokens line) answers = some args → Fits args) := by
  obtain ⟨l₀, hsetup, -, hpending⟩ : ∃ l₀, l.gettoken fuel s = some (l₀, 0, 0) ∧ _ :=
    setup_spec hs hstr hnul (by omega)
  have hstart : Parsing fuel s (s + line.length)
      ⟨l₀, 0, fun _ => 0, [], [], answers, .parsing⟩ [] (tokens line) :=
    ⟨⟨rfl, Nat.zero_le _, nofun, nofun, rfl⟩, rfl, hpending, tokens_ok hnul (by omega)⟩
  have hlen := tokens_length_le line
  obtain ⟨st, hloop, hleaves⟩ := loop_spec (n := fuel) hstart (by omega) (by omega)
  unfold runcmd
  rw [hsetup]
  simp only [Option.bind_eq_bind, Option.bind_some]
  rw [hloop, Option.bind_some]
  rcases hleaves with ⟨hplace, args, hheld, htarget⟩ | ⟨-, hplace, htarget, hin⟩
  · obtain ⟨st', hrun, hiff⟩ : ∃ st', st.runit argv0buf fuel = some st' ∧ _ := runit_spec hheld
    rw [if_pos hplace]
    refine ⟨st', hrun, hiff.trans ⟨fun hfits args' hargs' => ?_, fun hall => hall args htarget⟩⟩
    obtain rfl := Option.some.inj (htarget.symm.trans hargs')
    exact hfits
  · rw [if_neg hplace]
    refine ⟨st, rfl, iff_of_true hin (fun args hargs => ?_)⟩
    have hnone : (none : Option (List (List U8))) = some args := htarget.symm.trans hargs
    cases hnone

/-- All processes of a line stay inside the buffers exactly when there is room for all of its
commands. -/
theorem runcmd_safe_iff (argv0buf fuel : Nat) (l : Lexer) (s : Nat) (line : List U8) (hs : s ≠ 0)
    (hstr : StringAt l.mem s line) (hnul : NoNul line) (hfuel : line.length + 1 < fuel) :
    (∀ answers, ∃ st, runcmd argv0buf fuel l answers s = some st ∧ st.InBounds) ↔
      ∀ args, args ∈ commands [] (tokens line) → Fits args := by
  constructor
  · intro h args hargs
    obtain ⟨answers, hcommand⟩ := exists_commandOf hargs
    obtain ⟨st, hrun, hin⟩ := h answers
    obtain ⟨st', hrun', hiff⟩ :=
      runcmd_inBounds_iff argv0buf fuel l answers s line hs hstr hnul hfuel
    obtain rfl := Option.some.inj (hrun.symm.trans hrun')
    exact hiff.mp hin args hcommand
  · intro h answers
    obtain ⟨st, hrun, hiff⟩ := runcmd_inBounds_iff argv0buf fuel l answers s line hs hstr hnul hfuel
    exact ⟨st, hrun, hiff.mpr (fun args hargs => h args (commandOf_mem hargs))⟩

theorem runcmd_safe_iff_ls :
    (∀ answers, ∃ st, runcmd 8 7 lsLexer answers 100 = some st ∧ st.InBounds) ↔
      ∀ args, args ∈ commands [] (tokens lsLine) → Fits args :=
  runcmd_safe_iff 8 7 lsLexer 100 lsLine (by decide)
    (memOf_string 100 lsLine) (by unfold NoNul; decide) (by decide)

/-! ## A command of sixteen words -/

/-- `a a a ...`. -/
def manyWords : Nat → List U8
  | 0 => []
  | n + 1 => byte 'a' :: byte ' ' :: manyWords n

theorem tokens_manyWords (n : Nat) :
    tokens (manyWords n) = List.replicate n (.word [byte 'a']) := by
  induction n with
  | zero => rw [manyWords, tokens, List.replicate_zero]
  | succ n ih =>
      rw [manyWords, tokens, if_neg (by decide), if_neg (by decide),
        List.takeWhile_cons_of_neg (by decide), List.dropWhile_cons_of_neg (by decide), tokens,
        if_pos (by decide), ih, List.replicate_succ]

theorem manyWords_noNul (n : Nat) : NoNul (manyWords n) := by
  induction n with
  | zero => nofun
  | succ n ih =>
      intro c hc
      rcases List.mem_cons.mp hc with rfl | hc
      · decide
      · rcases List.mem_cons.mp hc with rfl | hc
        · decide
        · exact ih c hc

theorem commandOf_words {n : Nat} {args : List (List U8)} (h : args.length + n ≤ maxargs)
    (w : List U8) (answers : Nat → Int) :
    commandOf args (List.replicate n (.word w)) answers = some (args ++ List.replicate n w) := by
  induction n generalizing args with
  | zero => rw [List.replicate_zero, List.replicate_zero, List.append_nil]; rfl
  | succ n ih =>
      rw [List.replicate_succ, commandOf, if_neg (by omega),
        ih (by rw [List.length_append, List.length_singleton]; omega), List.append_assoc]
      rfl

def manyLexer : Lexer := ⟨memOf 100 (manyWords 16), 0, 0, 0⟩

/-- The null pointer behind sixteen words is not in `argv`. -/
theorem not_runcmd_safe : ¬ ∀ (argv0buf fuel : Nat) (l : Lexer) (s : Nat) (line : List U8),
    s ≠ 0 → StringAt l.mem s line → NoNul line → line.length ≤ 1023 → line.length + 1 < fuel →
    ∀ answers, ∃ st, runcmd argv0buf fuel l answers s = some st ∧ st.InBounds := by
  intro h
  obtain ⟨st, hrun, hin⟩ := h 8 40 manyLexer 100 (manyWords 16) (by decide)
    (memOf_string 100 (manyWords 16)) (manyWords_noNul 16) (by decide) (by decide) (fun _ => 0)
  obtain ⟨st', hrun', hiff⟩ := runcmd_inBounds_iff 8 40 manyLexer (fun _ => 0) 100 (manyWords 16)
    (by decide) (memOf_string 100 (manyWords 16)) (manyWords_noNul 16) (by decide)
  obtain rfl := Option.some.inj (hrun.symm.trans hrun')
  have hfits := hiff.mp hin _ (by
    rw [tokens_manyWords]
    exact commandOf_words (by decide) _ _)
  exact hfits.1 (by decide)

end Shell

end Jos

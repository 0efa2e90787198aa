import Jos.Mmu
import Mathlib.Data.List.TakeWhile

/-!
# The lexer of the shell, `gettoken` of `user/sh.c`

`gettoken` is one token ahead of what it returns: the call that returns a token has looked
for the next one already, and has thereby put a `NUL` behind the word that it returns.
Memory is partial, so that an access to a byte that is not there is seen.
-/

namespace Jos

namespace Shell

/-- The code of a character. -/
def byte (c : Char) : U8 := BitVec.ofNat 8 c.toNat

/-- `WHITESPACE`. -/
def whitespace : List U8 := " \t\r\n".toList.map byte

/-- `SYMBOLS`. -/
def symbols : List U8 := "<|>&;()".toList.map byte

/-- `strchr`, which does not find the `NUL` of its string. -/
def strchr (s : List U8) (c : U8) : Bool := s.any (fun d => d = c)

/-- The bytes that there are. -/
abbrev Mem := Nat → Option U8

/-- `*s = c`. -/
def store (m : Mem) (s : Nat) (c : U8) : Option Mem :=
  (m s).map (fun _ => Function.update m s (some c))

/-- `while (strchr(WHITESPACE, *s)) *s++ = 0;` -/
def skipBlanks : Nat → Mem → Nat → Option (Mem × Nat)
  | 0, _, _ => none
  | fuel + 1, m, s => do
      let c ← m s
      if strchr whitespace c then
        let m ← store m s 0#8
        skipBlanks fuel m (s + 1)
      else some (m, s)

/-- `while (*s && !strchr(WHITESPACE SYMBOLS, *s)) s++;` -/
def skipWord : Nat → Mem → Nat → Option Nat
  | 0, _, _ => none
  | fuel + 1, m, s => do
      let c ← m s
      if c ≠ 0#8 ∧ strchr (whitespace ++ symbols) c = false then skipWord fuel m (s + 1)
      else some s

/-- The memory, and the static variables of `gettoken`. -/
structure Lexer where
  mem : Mem
  nc : Int
  np1 : Nat
  np2 : Nat

/-- `'w'`. -/
def wordCode : Int := 'w'.toNat

/-- `nc = _gettoken(s, &np1, &np2)`. -/
def Lexer.next (fuel : Nat) (l : Lexer) (s : Nat) : Option Lexer :=
  if s = 0 then some { l with nc := 0 }
  else do
    let (m, s) ← skipBlanks fuel l.mem s
    let c ← m s
    if c = 0#8 then some ⟨m, 0, 0, 0⟩
    else if strchr symbols c then
      let m ← store m s 0#8
      some ⟨m, c.toInt, s, s + 1⟩
    else do
      let e ← skipWord fuel m s
      some ⟨m, wordCode, s, e⟩

/-- `gettoken(s, p1)`, with what it returns and what it stores in `*p1`; it stores nothing when
`s` is not null. -/
def Lexer.gettoken (fuel : Nat) (l : Lexer) (s : Nat) : Option (Lexer × Int × Nat) :=
  if s ≠ 0 then (l.next fuel s).map (fun l' => (l', 0, 0))
  else (l.next fuel l.np2).map (fun l' => (l', l.nc, l.np1))

/-- `gettoken(0, p1)`, that many times. -/
def Lexer.gettokens (fuel : Nat) (l : Lexer) : Nat → Option Lexer
  | 0 => some l
  | n + 1 => (l.gettokens fuel n).bind (fun l => (l.gettoken fuel 0).map Prod.fst)

/-! ## The reference lexer -/

inductive Token where
  | symbol (c : U8)
  | word (cs : List U8)
deriving DecidableEq

/-- Part of a word. -/
def ordinary (c : U8) : Bool := !strchr (whitespace ++ symbols) c

/-- The tokens of a string. -/
def tokens : List U8 → List Token
  | [] => []
  | c :: cs =>
      if strchr whitespace c then tokens cs
      else if strchr symbols c then .symbol c :: tokens cs
      else .word (c :: cs.takeWhile ordinary) :: tokens (cs.dropWhile ordinary)
termination_by cs => cs.length
decreasing_by
  · exact Nat.lt_succ_self _
  · exact Nat.lt_succ_self _
  · exact Nat.lt_succ_of_le (List.length_dropWhile_le _ _)

/-- What `gettoken` returns for a token, and at the end. -/
def tokenCode : Option Token → Int
  | none => 0
  | some (.symbol c) => c.toInt
  | some (.word _) => wordCode

/-- There are these characters from that address on. -/
def CharsAt (m : Mem) : Nat → List U8 → Prop
  | _, [] => True
  | p, c :: cs => m p = some c ∧ CharsAt m (p + 1) cs

/-- There is this string, with its `NUL`. -/
def StringAt (m : Mem) (p : Nat) (cs : List U8) : Prop :=
  CharsAt m p cs ∧ m (p + cs.length) = some 0#8

/-- The characters of a string. -/
def NoNul (cs : List U8) : Prop := ∀ c, c ∈ cs → c ≠ 0#8

/-! ## Strings in memory -/

section Strings

variable {m m' m'' : Mem} {p q n : Nat} {c : U8} {cs cs' : List U8}

theorem charsAt_append :
    CharsAt m p (cs ++ cs') ↔ CharsAt m p cs ∧ CharsAt m (p + cs.length) cs' := by
  induction cs generalizing p with
  | nil => simp [CharsAt]
  | cons c cs ih =>
      have hlen : p + (c :: cs).length = p + 1 + cs.length := by
        rw [List.length_cons]
        omega
      rw [hlen, List.cons_append, CharsAt, CharsAt, ih, and_assoc]

theorem CharsAt.congr (h : CharsAt m p cs) (hsame : ∀ a, p ≤ a → a < p + cs.length → m' a = m a) :
    CharsAt m' p cs := by
  induction cs generalizing p with
  | nil => trivial
  | cons c cs ih =>
      rw [List.length_cons] at hsame
      refine ⟨(hsame p (Nat.le_refl _) (by omega)).trans h.1, ih h.2 (fun a hge hlt => ?_)⟩
      exact hsame a (by omega) (by omega)

theorem StringAt.cons_iff :
    StringAt m p (c :: cs) ↔ m p = some c ∧ StringAt m (p + 1) cs := by
  have hlen : p + (c :: cs).length = p + 1 + cs.length := by
    rw [List.length_cons]
    omega
  unfold StringAt
  rw [hlen, CharsAt, and_assoc]

theorem StringAt.append_iff :
    StringAt m p (cs ++ cs') ↔ CharsAt m p cs ∧ StringAt m (p + cs.length) cs' := by
  unfold StringAt
  rw [charsAt_append, List.length_append, Nat.add_assoc, and_assoc]

theorem StringAt.congr (h : StringAt m p cs) (hsame : ∀ a, p ≤ a → m' a = m a) :
    StringAt m' p cs :=
  ⟨h.1.congr (fun a hge _ => hsame a hge), (hsame _ (by omega)).trans h.2⟩

/-- Some bytes of a region have become zero, and nothing else has changed. -/
def Cleared (p n : Nat) (m m' : Mem) : Prop :=
  ∀ a, m' a = m a ∨ (p ≤ a ∧ a < p + n ∧ m' a = some 0#8)

theorem Cleared.refl (p n : Nat) (m : Mem) : Cleared p n m m := fun _ => Or.inl rfl

theorem Cleared.trans (h : Cleared p n m m') (h' : Cleared p n m' m'') : Cleared p n m m'' := by
  intro a
  rcases h' a with heq | hin
  · rw [heq]
    exact h a
  · exact Or.inr hin

theorem Cleared.mono {p' n' : Nat} (h : Cleared p n m m') (hge : p' ≤ p)
    (hle : p + n ≤ p' + n') : Cleared p' n' m m' := by
  intro a
  rcases h a with heq | ⟨ha, hlt, hzero⟩
  · exact Or.inl heq
  · exact Or.inr ⟨by omega, by omega, hzero⟩

theorem Cleared.outside (h : Cleared p n m m') {a : Nat} (ha : a < p ∨ p + n ≤ a) :
    m' a = m a := by
  rcases h a with heq | ⟨hge, hlt, -⟩
  · exact heq
  · omega

/-- A `NUL` stays. -/
theorem Cleared.zero (h : Cleared p n m m') {a : Nat} (ha : m a = some 0#8) :
    m' a = some 0#8 := by
  rcases h a with heq | ⟨-, -, hzero⟩
  · rw [heq, ha]
  · exact hzero

/-- A byte of the string becomes zero. -/
theorem store_cleared (hc : m p = some c) (hn : 0 < n) :
    ∃ m', store m p 0#8 = some m' ∧ Cleared p n m m' ∧ m' p = some 0#8 ∧
      ∀ a, p < a → m' a = m a := by
  refine ⟨Function.update m p (some 0#8), ?_, fun a => ?_, Function.update_self .., fun a ha => ?_⟩
  · unfold store
    rw [hc]
    rfl
  · by_cases ha : a = p
    · subst ha
      exact Or.inr ⟨Nat.le_refl _, by omega, Function.update_self ..⟩
    · exact Or.inl (Function.update_of_ne ha _ _)
  · exact Function.update_of_ne (by omega) _ _

/-! ## One call of `_gettoken` -/

theorem skipBlanks_spec {fuel : Nat} (h : StringAt m p cs) (hfuel : cs.length < fuel) :
    ∃ m' q, skipBlanks fuel m p = some (m', q) ∧ Cleared p cs.length m m' ∧
      StringAt m' q (cs.dropWhile (strchr whitespace)) ∧
      q + (cs.dropWhile (strchr whitespace)).length = p + cs.length ∧ p ≤ q ∧
      (p < q → m' p = some 0#8) := by
  induction cs generalizing fuel m p with
  | nil =>
      obtain ⟨fuel, rfl⟩ := Nat.exists_eq_succ_of_ne_zero (by omega : fuel ≠ 0)
      refine ⟨m, p, ?_, Cleared.refl _ _ _, h, rfl, Nat.le_refl _, fun hlt => absurd hlt (by omega)⟩
      rw [skipBlanks, show m p = some 0#8 from h.2]
      rfl
  | cons c cs ih =>
      obtain ⟨fuel, rfl⟩ := Nat.exists_eq_succ_of_ne_zero (by omega : fuel ≠ 0)
      rw [List.length_cons] at hfuel ⊢
      obtain ⟨hc, hrest⟩ := StringAt.cons_iff.mp h
      by_cases hblank : strchr whitespace c = true
      · obtain ⟨m₁, hstore, hclear, hzero, habove⟩ :=
          store_cleared (n := cs.length + 1) hc (Nat.succ_pos _)
        have hrest₁ : StringAt m₁ (p + 1) cs := hrest.congr (fun a ha => habove a ha)
        obtain ⟨m', q, hrun, hclear', hstr, hlen, hle, -⟩ := ih hrest₁ (by omega : cs.length < fuel)
        have hclear₁ : Cleared p (cs.length + 1) m₁ m' := hclear'.mono (by omega) (by omega)
        refine ⟨m', q, ?_, hclear.trans hclear₁, ?_, ?_, by omega, fun _ => hclear₁.zero hzero⟩
        · rw [skipBlanks, hc]
          simp only [Option.bind_eq_bind, Option.bind_some, hblank, if_true, hstore]
          exact hrun
        · rw [List.dropWhile_cons_of_pos hblank]
          exact hstr
        · rw [List.dropWhile_cons_of_pos hblank]
          omega
      · refine ⟨m, p, ?_, Cleared.refl _ _ _, ?_, ?_, Nat.le_refl _,
          fun hlt => absurd hlt (by omega)⟩
        · rw [skipBlanks, hc]
          simp only [Option.bind_eq_bind, Option.bind_some, hblank]
          rfl
        · rw [List.dropWhile_cons_of_neg hblank]
          exact h
        · rw [List.dropWhile_cons_of_neg hblank, List.length_cons]

theorem skipWord_spec {fuel : Nat} (h : StringAt m p cs) (hnul : NoNul cs)
    (hfuel : cs.length < fuel) :
    skipWord fuel m p = some (p + (cs.takeWhile ordinary).length) := by
  induction cs generalizing fuel p with
  | nil =>
      obtain ⟨fuel, rfl⟩ := Nat.exists_eq_succ_of_ne_zero (by omega : fuel ≠ 0)
      rw [skipWord, show m p = some 0#8 from h.2]
      rfl
  | cons c cs ih =>
      obtain ⟨fuel, rfl⟩ := Nat.exists_eq_succ_of_ne_zero (by omega : fuel ≠ 0)
      rw [List.length_cons] at hfuel
      obtain ⟨hc, hrest⟩ := StringAt.cons_iff.mp h
      have hcnul : c ≠ 0#8 := hnul c List.mem_cons_self
      rw [skipWord, hc]
      by_cases hord : ordinary c = true
      · have hno : strchr (whitespace ++ symbols) c = false := by simpa [ordinary] using hord
        rw [List.takeWhile_cons_of_pos hord, List.length_cons]
        simp only [Option.bind_eq_bind, Option.bind_some, if_pos (And.intro hcnul hno)]
        rw [ih hrest (fun c' hc' => hnul c' (List.mem_cons_of_mem _ hc')) (by omega)]
        congr 1
        omega
      · have hyes : ¬ (c ≠ 0#8 ∧ strchr (whitespace ++ symbols) c = false) :=
          fun hh => hord (by simpa [ordinary] using hh.2)
        rw [List.takeWhile_cons_of_neg hord]
        simp only [Option.bind_eq_bind, Option.bind_some, if_neg hyes]
        rfl

theorem tokens_dropWhile (cs : List U8) :
    tokens (cs.dropWhile (strchr whitespace)) = tokens cs := by
  induction cs with
  | nil => rfl
  | cons c cs ih =>
      by_cases hblank : strchr whitespace c = true
      · rw [List.dropWhile_cons_of_pos hblank, tokens, if_pos hblank, ih]
      · rw [List.dropWhile_cons_of_neg hblank]

/-- A word ends in front of these characters. -/
def EndsWord (cs : List U8) : Prop := ∀ c rest, cs = c :: rest → ordinary c = false

/-- What `gettoken` has found ahead, from `b` on, and that the rest of the string, up to its
end `e`, is still there. -/
def Lexer.Pending (l : Lexer) (b e : Nat) : List Token → Prop
  | [] => l.nc = 0 ∧ l.np2 = 0
  | tok :: rest => l.nc = tokenCode (some tok) ∧ l.np2 ≠ 0 ∧ b ≤ l.np2 ∧
      ∃ cs, StringAt l.mem l.np2 cs ∧ NoNul cs ∧ l.np2 + cs.length = e ∧ tokens cs = rest ∧
      ∀ w, tok = .word w → CharsAt l.mem l.np1 w ∧ l.np1 + w.length = l.np2 ∧ EndsWord cs

theorem next_spec {l : Lexer} {fuel : Nat} (h : StringAt l.mem p cs) (hnul : NoNul cs)
    (hp : p ≠ 0) (hfuel : cs.length < fuel) :
    ∃ l', l.next fuel p = some l' ∧ Cleared p cs.length l.mem l'.mem ∧
      (EndsWord cs → l'.mem p = some 0#8) ∧ l'.Pending p (p + cs.length) (tokens cs) := by
  obtain ⟨m, q, hskip, hclear, hstr, hlen, hle, hzero⟩ := skipBlanks_spec h hfuel
  have hrestnul : NoNul (cs.dropWhile (strchr whitespace)) :=
    fun c hc => hnul c ((List.dropWhile_sublist _).mem hc)
  rw [← tokens_dropWhile cs, ← hlen]
  unfold Lexer.next
  rw [if_neg hp, hskip]
  simp only [Option.bind_eq_bind, Option.bind_some]
  cases hrest : cs.dropWhile (strchr whitespace) with
  | nil =>
      -- the end of the string
      rw [hrest] at hstr
      have hq : m q = some 0#8 := hstr.2
      rw [hq, tokens]
      refine ⟨_, rfl, hclear, fun _ => ?_, rfl, rfl⟩
      rcases Nat.lt_or_eq_of_le hle with hlt | rfl
      · exact hzero hlt
      · exact hq
  | cons c rest =>
      have hcs : p = q → cs = c :: rest := by
        rintro rfl
        have hlength : (cs.dropWhile (strchr whitespace)).length = cs.length := by omega
        rw [← hrest]
        exact ((List.dropWhile_suffix _).eq_of_length hlength).symm
      have hblank : strchr whitespace c = false := by
        have hhead := List.head?_dropWhile_not (strchr whitespace) cs
        rw [hrest] at hhead
        simpa using hhead
      have hord : ordinary c = !strchr symbols c := by
        unfold ordinary strchr
        rw [List.any_append]
        unfold strchr at hblank
        rw [hblank, Bool.false_or]
      rw [hrest] at hstr hlen hrestnul
      rw [List.length_cons] at hlen
      obtain ⟨hc, hstr'⟩ := StringAt.cons_iff.mp hstr
      have hcnul : c ≠ 0#8 := hrestnul c List.mem_cons_self
      have hrestnul' : NoNul rest := fun c' hc' => hrestnul c' (List.mem_cons_of_mem _ hc')
      rw [hc, tokens, if_neg (by rw [hblank]; decide)]
      simp only [Option.bind_some, if_neg hcnul, List.length_cons]
      by_cases hsymbol : strchr symbols c = true
      · obtain ⟨m', hstore, hclear', hzero', habove⟩ :=
          store_cleared (n := rest.length + 1) hc (Nat.succ_pos _)
        have hclear₁ : Cleared p cs.length m m' := hclear'.mono hle (by omega)
        rw [if_pos hsymbol, if_pos hsymbol, hstore]
        refine ⟨_, rfl, hclear.trans hclear₁, fun _ => ?_, rfl, Nat.succ_ne_zero _,
          Nat.le_succ_of_le hle, rest, hstr'.congr (fun a ha => habove a ha), hrestnul', ?_, rfl,
          nofun⟩
        · rcases Nat.lt_or_eq_of_le hle with hlt | rfl
          · exact hclear₁.zero (hzero hlt)
          · exact hzero'
        · dsimp only
          omega
      · have hword : ordinary c = true := by simpa [hord] using hsymbol
        have hskipWord : skipWord fuel m q = some _ :=
          skipWord_spec hstr hrestnul (by rw [List.length_cons]; omega)
        rw [List.takeWhile_cons_of_pos hword] at hskipWord
        have hsplit : c :: rest = (c :: rest.takeWhile ordinary) ++ rest.dropWhile ordinary := by
          rw [List.cons_append, List.takeWhile_append_dropWhile]
        have htotal := congrArg List.length hsplit
        rw [List.length_append] at htotal
        rw [hsplit] at hstr
        obtain ⟨hchars, hstr''⟩ := StringAt.append_iff.mp hstr
        rw [if_neg hsymbol, if_neg hsymbol, hskipWord]
        refine ⟨_, rfl, hclear, fun hends => ?_, rfl, ?_, ?_, rest.dropWhile ordinary, hstr'',
          fun c' hc' => hrestnul' c' ((List.dropWhile_sublist _).mem hc'), ?_, rfl, ?_⟩
        · rcases Nat.lt_or_eq_of_le hle with hlt | heq
          · exact hzero hlt
          · -- the string starts with a word
            have hnot := hends c rest (hcs heq)
            rw [hword] at hnot
            cases hnot
        · dsimp only
          omega
        · dsimp only
          omega
        · rw [List.length_cons] at htotal
          dsimp only
          omega
        · rintro w hw
          obtain rfl := Token.word.inj hw
          refine ⟨hchars, rfl, fun c' rest' hrest' => ?_⟩
          have hhead := List.head?_dropWhile_not ordinary rest
          rw [hrest'] at hhead
          simpa using hhead

/-- A word that has been returned, and that stays. -/
def Lexer.Returned (l : Lexer) (t : Nat) (w : List U8) : Prop :=
  StringAt l.mem t w ∧ (l.np2 = 0 ∨ t + w.length ≤ l.np2)

/-- What `gettoken(0, &t)` does when these tokens are left. -/
structure Lexer.Next (fuel : Nat) (l l' : Lexer) (b e : Nat) (toks : List Token) : Prop where
  run : l.gettoken fuel 0 = some (l', tokenCode toks.head?, l.np1)
  cleared : Cleared b (e - b) l.mem l'.mem
  pending : l'.Pending b e toks.tail
  word : ∀ w, toks.head? = some (.word w) → l'.Returned l.np1 w
  returned : ∀ t w, l.Returned t w → l'.Returned t w

theorem pending_le {l : Lexer} {b e : Nat} {toks : List Token} (h : l.Pending b e toks) :
    l.np2 = 0 ∨ b ≤ l.np2 := by
  cases toks with
  | nil => exact Or.inl h.2
  | cons tok rest => exact Or.inr h.2.2.1

theorem gettoken_spec {l : Lexer} {b e fuel : Nat} {toks : List Token}
    (h : l.Pending b e toks) (hfuel : e < b + fuel) : ∃ l', l.Next fuel l' b e toks := by
  cases toks with
  | nil =>
      obtain ⟨hnc, hnp2⟩ := h
      refine ⟨{ l with nc := 0 }, ?_, Cleared.refl _ _ _, ⟨rfl, hnp2⟩, nofun, fun t w hw => hw⟩
      unfold Lexer.gettoken Lexer.next
      rw [if_neg (by decide), if_pos hnp2, hnc]
      rfl
  | cons tok rest =>
      obtain ⟨hnc, hnp2, hle, cs, hstr, hnul, hlen, hrest, hword⟩ := h
      obtain ⟨l', hnext, hclear, hzero, hpending⟩ : ∃ l', l.next fuel l.np2 = some l' ∧ _ :=
        next_spec hstr hnul hnp2 (by omega)
      rw [hlen, hrest] at hpending
      have hkeeps : ∀ t w, CharsAt l.mem t w → t + w.length ≤ l.np2 → CharsAt l'.mem t w :=
        fun t w hw hend => hw.congr (fun a _ hlt => hclear.outside (Or.inl (by omega)))
      have hafter : ∀ n, n ≤ l.np2 → l'.np2 = 0 ∨ n ≤ l'.np2 :=
        fun n hn => (pending_le hpending).imp id (Nat.le_trans hn)
      refine ⟨l', ?_, hclear.mono hle (by omega), ?_, fun w hw => ?_, fun t w hw => ?_⟩
      · unfold Lexer.gettoken
        rw [if_neg (by decide), hnext, hnc]
        rfl
      · cases rest with
        | nil => exact hpending
        | cons tok' rest' => exact ⟨hpending.1, hpending.2.1, by have := hpending.2.2.1; omega,
            hpending.2.2.2⟩
      · obtain ⟨hchars, hend, hends⟩ := hword w (Option.some.inj hw)
        exact ⟨⟨hkeeps _ w hchars (by omega), by rw [hend]; exact hzero hends⟩,
          hafter _ (by omega)⟩
      · have hend : t + w.length ≤ l.np2 := hw.2.resolve_left hnp2
        exact ⟨⟨hkeeps t w hw.1.1 hend, hclear.zero hw.1.2⟩, hafter _ hend⟩

end Strings

/-! ## All calls -/

section Calls

variable {l₀ l : Lexer} {b e fuel : Nat} {toks : List Token}

theorem gettokens_succ (k : Nat) {lₖ l' : Lexer} (h : l.gettokens fuel k = some lₖ)
    {c : Int} {t : Nat} (hcall : lₖ.gettoken fuel 0 = some (l', c, t)) :
    l.gettokens fuel (k + 1) = some l' := by
  rw [Lexer.gettokens, h, Option.bind_some, hcall]
  rfl

/-- After `k` calls the first `k` tokens are gone. -/
theorem gettokens_spec (h : l.Pending b e toks) (hfuel : e < b + fuel) (k : Nat) :
    ∃ lₖ, l.gettokens fuel k = some lₖ ∧ lₖ.Pending b e (toks.drop k) ∧
      Cleared b (e - b) l.mem lₖ.mem := by
  induction k with
  | zero => exact ⟨l, rfl, h, Cleared.refl _ _ _⟩
  | succ k ih =>
      obtain ⟨lₖ, hrun, hpending, hclear⟩ := ih
      obtain ⟨l', hnext⟩ := gettoken_spec hpending hfuel
      refine ⟨l', gettokens_succ k hrun hnext.run, ?_, hclear.trans hnext.cleared⟩
      rw [← List.tail_drop]
      exact hnext.pending

/-- A word that has been returned stays. -/
theorem gettokens_returned (h : l.Pending b e toks) (hfuel : e < b + fuel) {k : Nat} {lₖ : Lexer}
    (hk : l.gettokens fuel k = some lₖ) {t : Nat} {w : List U8} (hw : lₖ.Returned t w) (j : Nat) :
    ∃ l', l.gettokens fuel (k + j) = some l' ∧ l'.Returned t w := by
  induction j with
  | zero => exact ⟨lₖ, hk, hw⟩
  | succ j ih =>
      obtain ⟨l', hrun, hret⟩ := ih
      obtain ⟨l₁, hrun₁, hpending, -⟩ := gettokens_spec h hfuel (k + j)
      obtain rfl := Option.some.inj (hrun.symm.trans hrun₁)
      obtain ⟨l'', hnext⟩ := gettoken_spec hpending hfuel
      exact ⟨l'', gettokens_succ (k + j) hrun hnext.run, hnext.returned t w hret⟩

theorem setup_spec {s : Nat} {line : List U8} (hs : s ≠ 0) (hstr : StringAt l.mem s line)
    (hnul : NoNul line) (hfuel : line.length < fuel) :
    ∃ l₀, l.gettoken fuel s = some (l₀, 0, 0) ∧ Cleared s line.length l.mem l₀.mem ∧
      l₀.Pending s (s + line.length) (tokens line) := by
  obtain ⟨l₀, hnext, hclear, -, hpending⟩ := next_spec hstr hnul hs hfuel
  refine ⟨l₀, ?_, hclear, hpending⟩
  unfold Lexer.gettoken
  rw [if_pos hs, hnext]
  rfl

end Calls

/-- The calls of `gettoken` return the tokens of the string.  There may be nothing in memory
but the string. -/
theorem gettoken_tokens (l : Lexer) (s : Nat) (line : List U8) (fuel : Nat) (hs : s ≠ 0)
    (hstr : StringAt l.mem s line) (hnul : NoNul line) (hfuel : line.length < fuel) :
    ∃ l₀, l.gettoken fuel s = some (l₀, 0, 0) ∧
      ∀ k, ∃ lₖ l' t, l₀.gettokens fuel k = some lₖ ∧
        lₖ.gettoken fuel 0 = some (l', tokenCode (tokens line)[k]?, t) ∧
        (∀ a, a < s ∨ s + line.length ≤ a → l'.mem a = l.mem a) ∧
        ∀ w, (tokens line)[k]? = some (.word w) → ∀ j,
          ∃ l'', l₀.gettokens fuel (k + 1 + j) = some l'' ∧ StringAt l''.mem t w := by
  obtain ⟨l₀, hsetup, hclear₀, hpending₀⟩ := setup_spec hs hstr hnul hfuel
  have hfuel' : s + line.length < s + fuel := by omega
  refine ⟨l₀, hsetup, fun k => ?_⟩
  obtain ⟨lₖ, hrun, hpending, hclear⟩ := gettokens_spec hpending₀ hfuel' k
  obtain ⟨l', hnext⟩ := gettoken_spec hpending hfuel'
  have hcall := hnext.run
  rw [List.head?_drop] at hcall
  refine ⟨lₖ, l', lₖ.np1, hrun, hcall, fun a ha => ?_, fun w hw j => ?_⟩
  · have hlen : s + line.length - s = line.length := Nat.add_sub_cancel_left _ _
    have htotal := (hclear.trans hnext.cleared).outside (a := a) (by omega)
    exact htotal.trans (hclear₀.outside (by omega))
  · have hret := hnext.word w (by rw [List.head?_drop]; exact hw)
    obtain ⟨l'', hrun'', hret''⟩ :=
      gettokens_returned hpending₀ hfuel' (gettokens_succ k hrun hcall) hret j
    exact ⟨l'', hrun'', hret''.1⟩

/-- Nothing but a string in memory. -/
def memOf (s : Nat) (cs : List U8) : Mem := fun a =>
  if a < s then none else (cs ++ [0#8])[a - s]?

theorem memOf_string (s : Nat) (cs : List U8) : StringAt (memOf s cs) s cs := by
  have hat : ∀ i, memOf s cs (s + i) = (cs ++ [0#8])[i]? := by
    intro i
    unfold memOf
    rw [if_neg (by omega), Nat.add_sub_cancel_left]
  have hchars : ∀ front back, cs = front ++ back →
      CharsAt (memOf s cs) (s + front.length) back := by
    intro front back hcs
    induction back generalizing front with
    | nil => trivial
    | cons c back ih =>
        refine ⟨by rw [hat, hcs]; simp, ?_⟩
        have hrest := ih (front ++ [c]) (by rw [hcs, List.append_assoc]; rfl)
        rwa [List.length_append, List.length_singleton] at hrest
  exact ⟨hchars [] cs rfl, by rw [hat]; simp⟩

/-- The line `ls >o`. -/
def lsLine : List U8 := "ls >o".toList.map byte

def lsLexer : Lexer := ⟨memOf 100 lsLine, 7, 3, 4⟩

theorem gettoken_tokens_ls : ∃ l₀, lsLexer.gettoken 6 100 = some (l₀, 0, 0) ∧
    ∀ k, ∃ lₖ l' t, l₀.gettokens 6 k = some lₖ ∧
      lₖ.gettoken 6 0 = some (l', tokenCode (tokens lsLine)[k]?, t) ∧
      (∀ a, a < 100 ∨ 100 + lsLine.length ≤ a → l'.mem a = lsLexer.mem a) ∧
      ∀ w, (tokens lsLine)[k]? = some (.word w) → ∀ j,
        ∃ l'', l₀.gettokens 6 (k + 1 + j) = some l'' ∧ StringAt l''.mem t w :=
  gettoken_tokens lsLexer 100 lsLine 6 (by decide)
    (memOf_string 100 lsLine) (by unfold NoNul; decide) (by decide)

end Shell

end Jos

import Jos.Printfmt

/-!
# The escapes of a format, `lib/printfmt.c`

A format falls into text and escapes.  Behind the `%` of an escape there are flags, widths
and `l`s, and the first character that is none of these decides what is printed.  When
`vprintfmt` does not know this character, or when the format ends before it, the escape is
text.

`pieces` takes a format apart without looking back; `vprintfmt` goes back to the `%` of an
escape that it does not know, and reads its characters again.
-/

namespace Jos

namespace Formats

open Printfmt WhileLoop

def percent : U8 := BitVec.ofNat 8 '%'.toNat

/-- The characters that can stand between a `%` and the letter of its conversion. -/
def Mark (b : U8) : Prop :=
  b ∈ bytes ['-', '0', '1', '2', '3', '4', '5', '6', '7', '8', '9', '*', '.', '#', 'l']

instance : DecidablePred Mark := fun _ => inferInstanceAs (Decidable (_ ∈ _))

/-- The letters of the conversions, and the escaped `%`. -/
def Letter (b : U8) : Prop := b ∈ bytes ['c', 'e', 's', 'd', 'u', 'o', 'p', 'x', '%']

instance : DecidablePred Letter := fun _ => inferInstanceAs (Decidable (_ ∈ _))

/-- What stands between a `%` and the letter. -/
structure Body where
  chars : List U8
  marks : ∀ b, b ∈ chars → Mark b

def Body.empty : Body := ⟨[], nofun⟩

def Body.add (body : Body) (b : U8) (h : Mark b) : Body where
  chars := body.chars ++ [b]
  marks := by
    intro b' hb'
    rcases List.mem_append.mp hb' with hb' | hb'
    · exact body.marks b' hb'
    · rwa [List.mem_singleton.mp hb']

/-- A part of a format. -/
inductive Piece where
  | text (b : U8) (h : b ≠ percent)
  | escape (body : Body) (letter : U8) (h : ¬ Mark letter)
  /-- an escape that the end of the format cuts off -/
  | cutOff (body : Body)

def Piece.chars : Piece → List U8
  | text b _ => [b]
  | escape body letter _ => percent :: (body.chars ++ [letter])
  | cutOff body => percent :: body.chars

/-- Takes a format apart; the escape that is being read is its body so far. -/
def scan : Option Body → List U8 → List Piece
  | none, [] => []
  | none, b :: bs => if h : b = percent then scan (some .empty) bs else .text b h :: scan none bs
  | some body, [] => [.cutOff body]
  | some body, b :: bs =>
      if h : Mark b then scan (some (body.add b h)) bs else .escape body b h :: scan none bs

def pieces (format : List U8) : List Piece := scan none format

/-! ## What the pieces print -/

/-- What has been read of an escape. -/
structure Reading where
  escape : Escape
  /-- the word that `va_arg` takes next -/
  ap : Nat
  /-- the number whose digits are being read -/
  number : Option Int

namespace Reading

/-- A number is the width, or the precision if there is a width already. -/
def give (e : Escape) (n : Int) : Escape :=
  if e.width < 0 then { e with width := n, precision := -1 } else { e with precision := n }

/-- The number that is being read ends. -/
def finish (r : Reading) : Reading :=
  match r.number with
  | none => r
  | some n => { r with escape := give r.escape n, number := none }

/-- A character that belongs to no number before it. -/
def mark (c : Call) (r : Reading) (b : U8) : Reading :=
  match Char.ofNat b.toNat with
  | '-' => { r with escape := { r.escape with padc := code '-' } }
  | '0' => { r with escape := { r.escape with padc := code '0' } }
  | '*' => { r with escape := give r.escape (c.arg r.ap).toInt, ap := r.ap + 1 }
  | '.' => { r with escape :=
      { r.escape with width := if r.escape.width < 0 then 0 else r.escape.width } }
  | '#' => { r with escape := { r.escape with altflag := true } }
  | 'l' => { r with escape := { r.escape with lflag := r.escape.lflag + 1 } }
  | _ => { r with number := some (b.toNat - code '0') }

/-- One character of the body. -/
def read (c : Call) (r : Reading) (b : U8) : Reading :=
  match r.number with
  | none => r.mark c b
  | some n =>
      if (b.toNat : Int) < code '0' ∨ code '9' < (b.toNat : Int) then r.finish.mark c b
      else { r with number := some (int (n * 10 + b.toNat - code '0')) }

end Reading

/-- The body of an escape, with its arguments from `a` on. -/
def Body.reading (body : Body) (c : Call) (a : Nat) : Reading :=
  body.chars.foldl (Reading.read c) ⟨.start, a, none⟩

/-- Characters as they are in the format. -/
def verbatim (bs : List U8) : List Int := bs.map (fun b => (b.toNat : Int))

/-- What a conversion writes, and the word that it leaves for the next one. -/
def conversion (c : Call) (r : Reading) (letter : U8) : List Int × Nat :=
  let s := (Printing.mk 0 r.ap [] (.escape r.escape)).switch c r.escape letter
  (s.out, s.ap)

/-- What the pieces print, with their arguments from `a` on. -/
def written (c : Call) : Nat → List Piece → List Int
  | _, [] => []
  | a, p :: ps =>
      match p with
      | .text _ _ => verbatim p.chars ++ written c a ps
      | .escape body letter _ =>
          let r := (body.reading c a).finish
          if Letter letter then
            (conversion c r letter).1 ++ written c (conversion c r letter).2 ps
          else verbatim p.chars ++ written c r.ap ps
      | .cutOff body => verbatim p.chars ++ written c (body.reading c a).finish.ap ps

/-- The pieces are the whole format, in order. -/
theorem scan_chars (format : List U8) :
    (scan none format).flatMap Piece.chars = format ∧
      ∀ body, (scan (some body) format).flatMap Piece.chars =
        percent :: (body.chars ++ format) := by
  induction format with
  | nil => exact ⟨rfl, fun body => by simp [scan, Piece.chars]⟩
  | cons b bs ih =>
      obtain ⟨ihnone, ihsome⟩ := ih
      constructor
      · rw [scan]
        split
        · next h => rw [ihsome, h]; rfl
        · rw [List.flatMap_cons, ihnone]
          rfl
      · intro body
        rw [scan]
        split
        · rw [ihsome]
          simp [Body.add]
        · rw [List.flatMap_cons, ihnone]
          simp [Piece.chars]

/-- One escape is one piece. -/
theorem scan_body {letter : U8} (h : ¬ Mark letter) (bs : List U8) (hmarks : ∀ b, b ∈ bs → Mark b)
    (body : Body) : ∃ body', body'.chars = body.chars ++ bs ∧
      scan (some body) (bs ++ [letter]) = [.escape body' letter h] := by
  induction bs generalizing body with
  | nil =>
      refine ⟨body, (List.append_nil _).symm, ?_⟩
      rw [List.nil_append, scan, dif_neg h]
      rfl
  | cons b bs ih =>
      have hb : Mark b := hmarks b List.mem_cons_self
      obtain ⟨body', hchars, hscan⟩ :=
        ih (fun b' hb' => hmarks b' (List.mem_cons_of_mem _ hb')) (body.add b hb)
      refine ⟨body', ?_, ?_⟩
      · rw [hchars, Body.add, List.append_assoc]
        rfl
      · rw [List.cons_append, scan, dif_pos hb, hscan]

theorem pieces_escape (body : Body) {letter : U8} (h : ¬ Mark letter) :
    pieces (percent :: (body.chars ++ [letter])) = [.escape body letter h] := by
  obtain ⟨⟨chars, marks⟩, hchars, hscan⟩ := scan_body h body.chars body.marks .empty
  obtain rfl : chars = body.chars := hchars
  rw [pieces, scan, dif_pos rfl, hscan]

theorem pieces_chars (format : List U8) : (pieces format).flatMap Piece.chars = format :=
  (scan_chars format).1

/-! ## The way through an escape -/

section Walk

variable {c : Call} {i a : Nat} {out : List Int}

/-- `vprintfmt` has read so much of an escape, with the next character at `i`. -/
def Reading.At (i : Nat) (out : List Int) (r : Reading) (s : Printing) : Prop :=
  match r.number with
  | none => s = ⟨i, r.ap, out, .escape r.escape⟩
  | some n => ∃ p ch, int (p * 10 + ch - code '0') = n ∧
      s = ⟨i, r.ap, out, .field { r.escape with precision := p } ch⟩

theorem eq_of_char {b : U8} {ch : Char} (h : Char.ofNat b.toNat = ch) :
    b = BitVec.ofNat 8 ch.toNat := by
  have hlt := b.isLt
  have hvalid : b.toNat.isValidChar := Or.inl (by omega)
  have hnat : (Char.ofNat b.toNat).toNat = b.toNat := by
    rw [Char.ofNat, dif_pos hvalid]
    rfl
  rw [← h, hnat, BitVec.ofNat_toNat, BitVec.setWidth_eq]

/-- A flag, or the start of a number. -/
theorem mark_step {r : Reading} (hnumber : r.number = none) {b : U8} (hb : Mark b)
    (hfmt : c.fmt i = b) :
    (r.mark c b).At (i + 1) out ((Printing.mk i r.ap out (.escape r.escape)).step c) := by
  obtain ⟨e, a, number⟩ := r
  cases hnumber
  unfold Printing.step
  dsimp only
  rw [hfmt]
  unfold Mark bytes at hb
  simp only [List.map_cons, List.map_nil, List.mem_cons, List.not_mem_nil, or_false] at hb
  rcases hb with rfl | rfl | rfl | rfl | rfl | rfl | rfl | rfl | rfl | rfl | rfl | rfl | rfl |
    rfl | rfl
  any_goals rfl
  -- the digits, whose number starts from 0
  all_goals exact ⟨0, _, rfl, rfl⟩

/-- The number that is being read ends, and its last character is read again. -/
theorem finish_path {r : Reading} {s : Printing} (hat : r.At i out s) (hend : NoDigit (c.fmt i)) :
    Path c s ⟨i, r.finish.ap, out, .escape r.finish.escape⟩ := by
  obtain ⟨e, a, number⟩ := r
  cases number with
  | none =>
      obtain rfl : s = _ := hat
      exact Turns.refl _
  | some n =>
      obtain ⟨p, ch, hn, rfl⟩ := hat
      refine Path.one rfl ?_
      unfold Printing.step
      dsimp only
      rw [if_pos (show _ ∨ _ from hend), hn]
      rfl

/-- One character of an escape. -/
theorem read_path {r : Reading} {s : Printing} (hat : r.At i out s) {b : U8} (hb : Mark b)
    (hfmt : c.fmt i = b) :
    ∃ s', Path c s s' ∧ (r.read c b).At (i + 1) out s' := by
  cases hnumber : r.number with
  | none =>
      unfold Reading.At at hat
      rw [hnumber] at hat
      unfold Reading.read
      rw [hnumber]
      rw [show s = _ from hat]
      exact ⟨_, Path.one rfl rfl, mark_step hnumber hb hfmt⟩
  | some n =>
      unfold Reading.read
      rw [hnumber]
      by_cases hend : NoDigit b
      · have hpath := finish_path (c := c) hat (by rwa [hfmt])
        have hnone : r.finish.number = none := by
          unfold Reading.finish
          rw [hnumber]
        dsimp only
        rw [if_pos (show _ ∨ _ from hend)]
        exact ⟨_, hpath.trans (Path.one rfl rfl), mark_step hnone hb hfmt⟩
      · unfold Reading.At at hat
        rw [hnumber] at hat
        obtain ⟨p, ch, hn, rfl⟩ := hat
        dsimp only
        rw [if_neg (show ¬ (_ ∨ _) from hend)]
        refine ⟨_, Path.one rfl ?_, n, b.toNat, rfl, rfl⟩
        unfold Printing.step
        dsimp only
        rw [hfmt, if_neg (show ¬ (_ ∨ _) from hend), hn]

/-- The characters of a body. -/
theorem body_path {bs : List U8} (hmarks : ∀ b, b ∈ bs → Mark b) (hfmt : FmtAt c i bs)
    {r : Reading} {s : Printing} (hat : r.At i out s) :
    ∃ s', Path c s s' ∧ (bs.foldl (Reading.read c) r).At (i + bs.length) out s' := by
  induction bs generalizing i r s with
  | nil => exact ⟨s, Turns.refl _, hat⟩
  | cons b bs ih =>
      obtain ⟨s₁, hfirst, hat₁⟩ := read_path hat (hmarks b List.mem_cons_self) hfmt.1
      obtain ⟨s', hrest, hat'⟩ :=
        ih (fun b' hb' => hmarks b' (List.mem_cons_of_mem _ hb')) hfmt.2 hat₁
      have hlen : i + (b :: bs).length = i + 1 + bs.length := by
        rw [List.length_cons]
        omega
      rw [hlen]
      exact ⟨s', hfirst.trans hrest, hat'⟩

/-- What it does to the state is to write behind what there is, and to take arguments. -/
def Appends (f : Nat → List Int → Printing) (o : List Int) (a' : Nat) : Prop :=
  ∀ i out, f i out = ⟨i, a', out ++ o, .text⟩

theorem string_appends (e : Escape) (cs : List U8) :
    ∃ o, Appends (fun i out => (Printing.mk i a out (.escape e)).string e cs) o a := by
  unfold Appends Printing.string
  dsimp only
  generalize hshown : (if e.precision < 0 then cs else cs.take e.precision.toNat) = shown
  by_cases hbefore : 0 < e.width ∧ e.padc ≠ code '-'
  · simp only [if_pos hbefore]
    exact ⟨_, fun i out => congrArg (fun o => Printing.mk i a o .text) (List.append_assoc _ _ _)⟩
  · simp only [if_neg hbefore]
    exact ⟨_, fun i out => congrArg (fun o => Printing.mk i a o .text) (List.append_assoc _ _ _)⟩

theorem error_appends (e : Escape) (err : U32) :
    ∃ o, Appends (fun i out => (Printing.mk i a out (.escape e)).error err) o a := by
  unfold Appends Printing.error
  dsimp only
  generalize (if err.toInt < 0 then -err else err) = err
  cases (if err.toInt < 0 then none else errorString.getD err.toNat none) with
  | some p => exact ⟨_, fun i out => rfl⟩
  | none =>
      refine ⟨"error ".toList.map code ++
        ((if (err.signExtend 64).toInt < 0 then [code '-'] else []) ++
          printnum (err.signExtend 64).toInt.natAbs 10 Escape.start.width Escape.start.padc),
        fun i out => ?_⟩
      dsimp only
      rw [signed_eq]
      exact congrArg (fun o => Printing.mk i a o .text) (List.append_assoc _ _ _)

/-- What is written in front of a conversion does not matter to it. -/
theorem letter_appends (c : Call) (e : Escape) (a : Nat) {b : U8} (hb : Letter b) :
    ∃ o a', Appends (fun i out => (Printing.mk i a out (.escape e)).switch c e b) o a' := by
  unfold Letter bytes at hb
  simp only [List.map_cons, List.map_nil, List.mem_cons, List.not_mem_nil, or_false] at hb
  let s : Printing := ⟨0, a, [], .escape e⟩
  let next := a + Printing.numWords e.lflag
  rcases hb with rfl | rfl | rfl | rfl | rfl | rfl | rfl | rfl | rfl
  · exact ⟨[(c.arg a).toInt], a + 1, fun i out => rfl⟩
  · obtain ⟨o, ho⟩ := error_appends (a := a + 1) e (c.arg a)
    exact ⟨o, a + 1, ho⟩
  · obtain ⟨o, ho⟩ := string_appends (a := a + 1) e (if c.arg a = 0#32 then
      "(null)".toList.map (fun c => BitVec.ofNat 8 c.toNat) else c.str (c.arg a))
    exact ⟨o, a + 1, ho⟩
  · exact ⟨(if (s.getint c e.lflag).toInt < 0 then [code '-'] else []) ++
      printnum (s.getint c e.lflag).toInt.natAbs 10 e.width e.padc, next,
      fun i out => signed_eq _ _⟩
  · exact ⟨printnum (s.getuint c e.lflag).toNat 10 e.width e.padc, next, fun i out => rfl⟩
  · exact ⟨printnum (s.getuint c e.lflag).toNat 8 e.width e.padc, next, fun i out => rfl⟩
  · exact ⟨[code '0', code 'x'] ++ printnum ((c.arg a).setWidth 64).toNat 16 e.width e.padc, a + 1,
      fun i out => congrArg (fun o => Printing.mk i (a + 1) o .text) (List.append_assoc _ _ _)⟩
  · exact ⟨printnum (s.getuint c e.lflag).toNat 16 e.width e.padc, next, fun i out => rfl⟩
  · exact ⟨[code '%'], a, fun i out => rfl⟩

theorem switch_letter {e : Escape} {b : U8} (hb : Letter b) :
    (Printing.mk i a out (.escape e)).switch c e b =
      ⟨i, (conversion c ⟨e, a, none⟩ b).2, out ++ (conversion c ⟨e, a, none⟩ b).1, .text⟩ := by
  obtain ⟨o, a', happ⟩ := letter_appends c e a hb
  have hconversion : conversion c ⟨e, a, none⟩ b = (o, a') := by
    have hswitch : (Printing.mk 0 a [] (.escape e)).switch c e b = ⟨0, a', [] ++ o, .text⟩ :=
      happ 0 []
    unfold conversion
    dsimp only
    rw [hswitch]
    rfl
  rw [hconversion]
  exact happ i out

/-- An escape that is not known. -/
theorem switch_unknown {s : Printing} {e : Escape} {b : U8} (hmark : ¬ Mark b)
    (hletter : ¬ Letter b) :
    s.switch c e b =
      ({ s with fmt := Printing.behindPercent c (s.fmt - 1) }.put [code '%']).next := by
  unfold Printing.switch
  split
  case h_25 => rfl
  all_goals
    next h =>
      rw [eq_of_char h] at hmark hletter
      first
      | exact absurd (by decide) hmark
      | exact absurd (by decide) hletter

theorem fmtAt_mem {bs : List U8} (hfmt : FmtAt c i bs) {j : Nat} (hge : i ≤ j)
    (hlt : j < i + bs.length) : c.fmt j ∈ bs := by
  induction bs generalizing i with
  | nil => exact absurd hlt (by simpa using hge)
  | cons b bs ih =>
      rw [List.length_cons] at hlt
      by_cases hfirst : j = i
      · rw [hfirst, hfmt.1]
        exact List.mem_cons_self
      · exact List.mem_cons_of_mem _ (ih hfmt.2 (by omega) (by omega))

/-- The scan backwards stops at the last `%`. -/
theorem behindPercent_eq {p k : Nat} (hpercent : c.fmt p = percent)
    (hlast : ∀ j, p < j → j < p + 1 + k → c.fmt j ≠ percent) :
    Printing.behindPercent c (p + 1 + k) = p + 1 := by
  induction k with
  | zero => exact if_pos hpercent
  | succ k ih =>
      have hno : c.fmt (p + 1 + k) ≠ percent := hlast _ (by omega) (by omega)
      show (if c.fmt (p + 1 + k) = percent then _ else _) = _
      rw [if_neg hno]
      exact ih (fun j hgt hlt => hlast j hgt (by omega))

theorem mark_plain {b : U8} (hb : Mark b) : b ≠ percent ∧ b ≠ 0#8 := by
  constructor <;> rintro rfl <;> revert hb <;> decide

theorem digit_mark {b : U8} (hb : ¬ Mark b) : NoDigit b := by
  by_contra hdigit
  have hall : ∀ b : U8, ¬ NoDigit b → Mark b := by
    unfold NoDigit
    decide
  exact hb (hall b hdigit)

/-- From the `%` to the character behind the body. -/
theorem escape_body_path {body : Body} (hfmt : FmtAt c (i + 1) body.chars)
    (hend : ¬ Mark (c.fmt (i + 1 + body.chars.length))) :
    Path c ⟨i + 1, a, out, .escape .start⟩ ⟨i + 1 + body.chars.length,
      (body.reading c a).finish.ap, out, .escape (body.reading c a).finish.escape⟩ := by
  have hstart : (Reading.mk Escape.start a none).At (i + 1) out
      ⟨i + 1, a, out, .escape .start⟩ := rfl
  obtain ⟨s, hpath, hat⟩ := body_path body.marks hfmt hstart
  exact hpath.trans (finish_path hat (digit_mark hend))

/-- An escape that is not known is text, up to the character that ends it. -/
theorem unknown_path {body : Body} (hfmt : FmtAt c i (percent :: body.chars))
    (hend : ¬ Mark (c.fmt (i + 1 + body.chars.length)))
    (hletter : ¬ Letter (c.fmt (i + 1 + body.chars.length))) :
    Path c ⟨i + 1, a, out, .escape .start⟩ ⟨i + 1 + body.chars.length,
      (body.reading c a).finish.ap, out ++ verbatim (percent :: body.chars), .text⟩ := by
  obtain ⟨hpercent, hbody⟩ := hfmt
  have hback : Printing.behindPercent c (i + 1 + body.chars.length) = i + 1 :=
    behindPercent_eq hpercent (fun j hgt hlt =>
      (mark_plain (body.marks _ (fmtAt_mem hbody (by omega) (by omega)))).1)
  have hswitch : Path c ⟨i + 1 + body.chars.length, (body.reading c a).finish.ap, out,
      .escape (body.reading c a).finish.escape⟩
      ⟨i + 1, (body.reading c a).finish.ap, out ++ [code '%'], .text⟩ := by
    refine escape_path ?_
    rw [switch_unknown hend hletter]
    dsimp only
    rw [Nat.add_sub_cancel, hback]
    rfl
  have htext : Path c ⟨i + 1, (body.reading c a).finish.ap, out ++ [code '%'], .text⟩ _ :=
    text_path (fun b hb => mark_plain (body.marks b hb)) hbody
  have hout : out ++ verbatim (percent :: body.chars) =
      out ++ [code '%'] ++ body.chars.map (fun b => (b.toNat : Int)) := by
    rw [List.append_assoc]
    rfl
  rw [hout]
  exact (escape_body_path hbody hend).trans (hswitch.trans htext)

/-- `vprintfmt` returns from there on. -/
def Ends (c : Call) (s : Printing) (out : List Int) : Prop :=
  ∃ j a', Path c s ⟨j, a', out, .returned⟩

theorem Ends.of_path {s s' : Printing} (hpath : Path c s s') (h : Ends c s' out) :
    Ends c s out := by
  obtain ⟨j, a', hrest⟩ := h
  exact ⟨j, a', hpath.trans hrest⟩

/-- A character of the text. -/
theorem char_path {b : U8} (hpercent : b ≠ percent) (hzero : b ≠ 0#8) (hfmt : c.fmt i = b) :
    Path c ⟨i, a, out, .text⟩ ⟨i + 1, a, out ++ verbatim [b], .text⟩ := by
  have hplain : ∀ b', b' ∈ [b] → b' ≠ percent ∧ b' ≠ 0#8 := by
    simpa using ⟨hpercent, hzero⟩
  exact text_path hplain ⟨hfmt, trivial⟩

/-- A format is printed piece by piece, from its text and from an escape with this body. -/
theorem scan_ends {bs : List U8} (hnonzero : ∀ b, b ∈ bs → b ≠ 0#8) :
    (∀ i a out, FmtAt c i (bs ++ [0#8]) →
      Ends c ⟨i, a, out, .text⟩ (out ++ written c a (scan none bs))) ∧
    (∀ i a out body, FmtAt c i (percent :: (Body.chars body ++ (bs ++ [0#8]))) →
      Ends c ⟨i + 1, a, out, .escape .start⟩ (out ++ written c a (scan (some body) bs))) := by
  induction bs with
  | nil =>
      constructor
      · intro i a out hfmt
        rw [scan, written, List.append_nil]
        exact ⟨_, _, nul_path hfmt.1⟩
      · intro i a out body hfmt
        rw [← List.cons_append] at hfmt
        obtain ⟨hbody, hnul⟩ := fmtAt_append.mp hfmt
        rw [List.length_cons, ← Nat.add_assoc, Nat.add_right_comm] at hnul
        have hzero : c.fmt (i + 1 + body.chars.length) = 0#8 := hnul.1
        rw [scan, written, written, List.append_nil]
        refine Ends.of_path (unknown_path hbody ?_ ?_) ⟨_, _, nul_path hzero⟩
        · rw [hzero]
          decide
        · rw [hzero]
          decide
  | cons b bs ih =>
      obtain ⟨ihnone, ihsome⟩ := ih (fun b' hb' => hnonzero b' (List.mem_cons_of_mem _ hb'))
      have hb := hnonzero b List.mem_cons_self
      constructor
      · intro i a out hfmt
        rw [scan]
        split
        · next hpercent =>
            exact Ends.of_path (percent_path (hfmt.1.trans hpercent))
              (ihsome i a out .empty (by rwa [← hpercent]))
        · next hpercent =>
            rw [written, ← List.append_assoc]
            exact Ends.of_path (char_path hpercent hb hfmt.1) (ihnone _ _ _ hfmt.2)
      · intro i a out body hfmt
        rw [scan]
        split
        · next hmark =>
            refine ihsome i a out (body.add b hmark) ?_
            rw [Body.add, List.append_assoc]
            exact hfmt
        · next hmark =>
            rw [← List.cons_append] at hfmt
            obtain ⟨hbody, hrest⟩ := fmtAt_append.mp hfmt
            rw [List.length_cons, ← Nat.add_assoc, Nat.add_right_comm] at hrest
            obtain ⟨hbyte, hrest⟩ := hrest
            rw [written]
            by_cases hletter : Letter b
            · rw [if_pos hletter, ← List.append_assoc]
              refine Ends.of_path (escape_body_path hbody.2 (by rwa [hbyte])) ?_
              refine Ends.of_path (escape_path ?_) (ihnone _ _ _ hrest)
              rw [hbyte]
              exact switch_letter hletter
            · have hpercent : b ≠ percent := by
                rintro rfl
                exact hletter (by decide)
              rw [if_neg hletter, ← List.append_assoc, Piece.chars, ← List.cons_append, verbatim,
                List.map_append, ← List.append_assoc]
              refine Ends.of_path (unknown_path hbody (by rwa [hbyte]) (by rwa [hbyte])) ?_
              exact Ends.of_path (char_path hpercent hb hbyte) (ihnone _ _ _ hrest)

/-! ## What is read of a format -/

/-- The next character is in the format or is its `NUL`, and in an escape there is a `%` for the
scan backwards. -/
def ReadsInside (c : Call) (n : Nat) (s : Printing) : Prop :=
  s.fmt ≤ n ∧ ∀ e, s.place = .escape e → 0 < Printing.behindPercent c s.fmt

/-- Where `vprintfmt` is in a format of `n` characters. -/
def Inside (c : Call) (n : Nat) (s : Printing) : Prop :=
  match s.place with
  | .text => s.fmt ≤ n
  | .escape _ | .field _ _ => s.fmt ≤ n ∧ 0 < Printing.behindPercent c s.fmt
  | .returned => True

theorem behindPercent_le (i : Nat) : Printing.behindPercent c i ≤ i := by
  induction i with
  | zero => exact Nat.le_refl _
  | succ i ih =>
      rw [Printing.behindPercent]
      split
      · exact Nat.le_refl _
      · omega

theorem behindPercent_pos (h : 0 < Printing.behindPercent c i) :
    0 < Printing.behindPercent c (i + 1) := by
  rw [Printing.behindPercent]
  split
  · exact Nat.succ_pos _
  · exact h

theorem lt_of_nonzero {n : Nat} (hnul : c.fmt n = 0#8) (hle : i ≤ n) (h : c.fmt i ≠ 0#8) :
    i + 1 ≤ n := by
  have hne : i ≠ n := by
    rintro rfl
    exact h hnul
  omega

theorem Reading.At.inside {n : Nat} {r : Reading} {s : Printing} (hat : r.At i out s)
    (hle : i ≤ n) (hpos : 0 < Printing.behindPercent c i) : Inside c n s := by
  unfold Reading.At at hat
  split at hat
  · obtain rfl := hat
    exact ⟨hle, hpos⟩
  · obtain ⟨p, ch, -, rfl⟩ := hat
    exact ⟨hle, hpos⟩

/-- Every step stays in the format. -/
theorem step_inside {n : Nat} (hnul : c.fmt n = 0#8) {s : Printing} (hinside : Inside c n s) :
    Inside c n (s.step c) := by
  obtain ⟨i, a, out, place⟩ := s
  cases place with
  | text =>
      have hle : i ≤ n := hinside
      unfold Printing.step
      dsimp only
      split
      · next hpercent =>
          have hpos : 0 < Printing.behindPercent c (i + 1) := by
            rw [Printing.behindPercent, if_pos hpercent]
            exact Nat.succ_pos _
          exact ⟨lt_of_nonzero hnul hle (by rw [hpercent]; decide), hpos⟩
      · split
        · trivial
        · next hzero => exact lt_of_nonzero hnul hle hzero
  | escape e =>
      obtain ⟨hle, hpos⟩ : i ≤ n ∧ 0 < Printing.behindPercent c i := hinside
      by_cases hmark : Mark (c.fmt i)
      · have hnext : i + 1 ≤ n := lt_of_nonzero hnul hle (mark_plain hmark).2
        exact Reading.At.inside (mark_step (r := ⟨e, a, none⟩) rfl hmark rfl) hnext
          (behindPercent_pos hpos)
      · by_cases hletter : Letter (c.fmt i)
        · have hzero : c.fmt i ≠ 0#8 := by
            intro hzero
            rw [hzero] at hletter
            exact absurd hletter (by decide)
          have hstep : (Printing.mk i a out (.escape e)).step c = ⟨i + 1, _, _, .text⟩ :=
            switch_letter hletter
          rw [hstep]
          exact lt_of_nonzero hnul hle hzero
        · have hstep : (Printing.mk i a out (.escape e)).step c =
              ⟨Printing.behindPercent c i, a, out ++ [code '%'], .text⟩ :=
            switch_unknown hmark hletter
          rw [hstep]
          exact Nat.le_trans (behindPercent_le i) hle
  | field e ch =>
      obtain ⟨hle, hpos⟩ : i ≤ n ∧ 0 < Printing.behindPercent c i := hinside
      unfold Printing.step
      dsimp only
      split
      · exact ⟨hle, hpos⟩
      · next hdigit =>
          have hzero : c.fmt i ≠ 0#8 := by
            intro hzero
            rw [hzero] at hdigit
            exact hdigit (Or.inl (by decide))
          exact ⟨lt_of_nonzero hnul hle hzero, behindPercent_pos hpos⟩
  | returned => exact hinside

/-- So do all steps. -/
theorem path_inside {n : Nat} (hnul : c.fmt n = 0#8) {s : Printing}
    (hpath : Path c ⟨0, 0, [], .text⟩ s) : Inside c n s := by
  refine Turns.keeps (P := Inside c n) hpath (fun s s' hinside _ hstep => ?_) (Nat.zero_le n)
  rw [← Option.some.inj hstep]
  exact step_inside hnul hinside

end Walk

theorem Inside.reads {c : Call} {n : Nat} {s : Printing} (hinside : Inside c n s)
    (hgoing : Going s) : ReadsInside c n s := by
  obtain ⟨i, a, out, place⟩ := s
  cases place with
  | text => exact ⟨hinside, nofun⟩
  | escape e => exact ⟨hinside.1, fun _ _ => hinside.2⟩
  | field e ch => exact ⟨hinside.1, nofun⟩
  | returned => cases hgoing

theorem pieces_printed {c : Call} {format : List U8} (hnonzero : ∀ b, b ∈ format → b ≠ 0#8)
    (hfmt : FmtAt c 0 (format ++ [0#8])) : Prints c (written c 0 (pieces format)) := by
  obtain ⟨j, a', hpath⟩ := (scan_ends hnonzero).1 0 0 [] hfmt
  exact hpath.prints

/-- Every format is printed piece by piece: its text and the escapes that are not known or cut
off as they are, the others as their conversions.  Nothing outside of it is read. -/
theorem vprintfmt_scans (c : Call) (format : List U8) (hnonzero : ∀ b, b ∈ format → b ≠ 0#8)
    (hfmt : FmtAt c 0 (format ++ [0#8])) :
    Prints c (written c 0 (pieces format)) ∧
      (pieces format).flatMap Piece.chars = format ∧
      ∀ s, Path c ⟨0, 0, [], .text⟩ s → Going s → ReadsInside c format.length s := by
  have hnul := (fmtAt_append.mp hfmt).2.1
  rw [Nat.zero_add] at hnul
  exact ⟨pieces_printed hnonzero hfmt, pieces_chars format,
    fun s hpath hgoing => (path_inside hnul hpath).reads hgoing⟩

/-- `"%5z%c%-"`, with something behind its `NUL`. -/
def unknownAndCutOff : List U8 := bytes ['%', '5', 'z', '%', 'c', '%', '-']

def unknownAndCutOffCall : Call where
  fmt i := (unknownAndCutOff ++ [0#8]).getD i percent
  arg _ := BitVec.ofNat 32 'k'.toNat
  str _ := []

theorem vprintfmt_scans_cutOff :
    (∀ b, b ∈ unknownAndCutOff → b ≠ 0#8) ∧
      Prints unknownAndCutOffCall (['%', '5', 'z', 'k', '%', '-'].map code) := by
  have hnonzero : ∀ b, b ∈ unknownAndCutOff → b ≠ 0#8 := by decide
  have hfmt : FmtAt unknownAndCutOffCall 0 (unknownAndCutOff ++ [0#8]) :=
    ⟨rfl, rfl, rfl, rfl, rfl, rfl, rfl, rfl, trivial⟩
  exact ⟨hnonzero, (vprintfmt_scans unknownAndCutOffCall _ hnonzero hfmt).1⟩

end Formats

end Jos

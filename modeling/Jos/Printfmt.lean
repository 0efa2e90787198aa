import Jos.Lib.WhileLoop
import Jos.Mmu
import Mathlib.Data.List.Basic
import Mathlib.Data.Nat.Notation

/-!
# Formatted output, `lib/printfmt.c`

`vprintfmt` goes through its format one character after another, and `printnum` writes a
number with its padding.  The sign of a number is written before `printnum` is called, so
that it is in front of the padding and is not counted, and the flag `-` is a padding
character like the others.

A format is its characters, with `NUL` behind them; a string argument is the characters in
front of its `NUL`.  `putch` takes an `int`.
-/

namespace Jos

namespace Printfmt

open WhileLoop

/-- The code of a character. -/
def code (c : Char) : Int := c.toNat

/-- What gcc makes of a result that is no `int`. -/
def int (x : Int) : Int := x.bmod (2 ^ 32)

/-- `for (; n > 0; n--) putch(c, putdat);` -/
def repeatPutch (c : Int) (n : Int) : List Int := List.replicate n.toNat c

/-- `"0123456789abcdef"[n]`. -/
def digit (n : Nat) : Int := code ("0123456789abcdef".toList.getD n ' ')

/-- `printnum`.  The base is 8, 10 or 16. -/
def printnum (num base : Nat) (width padc : Int) : List Int :=
  if h : base ≤ num ∧ 2 ≤ base then
    have : num / base < num := Nat.div_lt_self (by omega) h.2
    printnum (num / base) base (int (width - 1)) padc ++ [digit (num % base)]
  else
    -- while (--width > 0)
    repeatPutch padc (int (width - 1)) ++ [digit (num % base)]
termination_by num

/-- `error_string`. -/
def errorString : List (Option String) :=
  [none, some "unspecified error", some "bad environment", some "invalid parameter",
    some "out of memory", some "out of environments", some "segmentation fault",
    some "env is not recving", some "unexpected end of file", some "no free space on disk",
    some "too many files are open", some "file or block not found", some "invalid path",
    some "file already exists", some "file is not a valid executable",
    some "operation not supported"]

/-- What a call of `vprintfmt` is given: the format, the words of the argument list, and the
strings in memory. -/
structure Call where
  fmt : Nat → U8
  arg : Nat → U32
  str : U32 → List U8

/-- The variables of a %-escape sequence. -/
structure Escape where
  padc : Int
  width : Int
  precision : Int
  lflag : Nat
  altflag : Bool

def Escape.start : Escape := ⟨code ' ', -1, -1, 0, false⟩

/-- The places of `vprintfmt` where it reads a character of the format. -/
inductive Place where
  /-- the loop that looks for a `%` -/
  | text
  /-- `reswitch` -/
  | escape (e : Escape)
  /-- the loop of the width field, with a character to add -/
  | field (e : Escape) (ch : Int)
  | returned

structure Printing where
  /-- where `fmt` points to -/
  fmt : Nat
  /-- the word that `va_arg` takes next -/
  ap : Nat
  out : List Int
  place : Place

namespace Printing

variable (c : Call)

/-- `putch` for every character. -/
def put (s : Printing) (cs : List Int) : Printing := { s with out := s.out ++ cs }

/-- `reswitch`. -/
def reswitch (s : Printing) (e : Escape) : Printing := { s with place := .escape e }

/-- The escape sequence is over. -/
def next (s : Printing) : Printing := { s with place := .text }

/-- `va_arg(ap, int)`. -/
def word (s : Printing) : U32 := c.arg s.ap

/-- `va_arg(ap, long long)`. -/
def doubleWord (s : Printing) : BitVec 64 := c.arg (s.ap + 1) ++ c.arg s.ap

/-- `ap` is past that many words. -/
def skip (s : Printing) (n : Nat) : Printing := { s with ap := s.ap + n }

/-- How many words `getuint` and `getint` take. -/
def numWords (lflag : Nat) : Nat := if 2 ≤ lflag then 2 else 1

/-- `getuint`. -/
def getuint (s : Printing) (lflag : Nat) : BitVec 64 :=
  if 2 ≤ lflag then s.doubleWord c else (s.word c).setWidth 64

/-- `getint`. -/
def getint (s : Printing) (lflag : Nat) : BitVec 64 :=
  if 2 ≤ lflag then s.doubleWord c else (s.word c).signExtend 64

/-- `number`. -/
def number (s : Printing) (e : Escape) (num : BitVec 64) (base : Nat) : Printing :=
  (s.put (printnum num.toNat base e.width e.padc)).next

/-- `%d`. -/
def signed (s : Printing) (e : Escape) (num : BitVec 64) : Printing :=
  if num.toInt < 0 then (s.put [code '-']).number e (-num) 10
  else s.number e num 10

/-- `%s`, for the string with these characters. -/
def string (s : Printing) (e : Escape) (p : List U8) : Printing :=
  let shown := if e.precision < 0 then p else p.take e.precision.toNat
  let left := e.width - shown.length
  let before := 0 < e.width ∧ e.padc ≠ code '-'
  let char := fun b : U8 =>
    if e.altflag ∧ (b.toInt < code ' ' ∨ code '~' < b.toInt) then code '?' else b.toInt
  let s := if before then s.put (repeatPutch e.padc left) else s
  let s := s.put (shown.map char)
  if before then s.next else (s.put (repeatPutch (code ' ') left)).next

/-- What `printfmt` writes for `"%s"` and for `"error %d"`. -/
def error (s : Printing) (err : U32) : Printing :=
  let err := if err.toInt < 0 then -err else err
  match (if err.toInt < 0 then none else (errorString.getD err.toNat none)) with
  | some p => (s.put (p.toList.map code)).next
  | none => (s.put ("error ".toList.map code)).signed .start (err.signExtend 64)

/-- `process_precision`. -/
def processPrecision (s : Printing) (e : Escape) : Printing :=
  s.reswitch (if e.width < 0 then { e with width := e.precision, precision := -1 } else e)

/-- `for (fmt--; fmt[-1] != '%'; fmt--)`. -/
def behindPercent : Nat → Nat
  | 0 => 0
  | i + 1 => if c.fmt i = BitVec.ofNat 8 '%'.toNat then i + 1 else behindPercent i

/-- The `switch`, with `fmt` past the character. -/
def switch (s : Printing) (e : Escape) (ch : U8) : Printing :=
  match Char.ofNat ch.toNat with
  | '-' => s.reswitch { e with padc := code '-' }
  | '0' => s.reswitch { e with padc := code '0' }
  | '1' | '2' | '3' | '4' | '5' | '6' | '7' | '8' | '9' =>
      { s with place := .field { e with precision := 0 } ch.toNat }
  | '*' => (s.skip 1).processPrecision { e with precision := (s.word c).toInt }
  | '.' => s.reswitch { e with width := if e.width < 0 then 0 else e.width }
  | '#' => s.reswitch { e with altflag := true }
  | 'l' => s.reswitch { e with lflag := e.lflag + 1 }
  | 'c' => ((s.skip 1).put [(s.word c).toInt]).next
  | 'e' => (s.skip 1).error (s.word c)
  | 's' => (s.skip 1).string e
      (if s.word c = 0#32 then "(null)".toList.map (fun c => BitVec.ofNat 8 c.toNat)
        else c.str (s.word c))
  | 'd' => (s.skip (numWords e.lflag)).signed e (s.getint c e.lflag)
  | 'u' => (s.skip (numWords e.lflag)).number e (s.getuint c e.lflag) 10
  | 'o' => (s.skip (numWords e.lflag)).number e (s.getuint c e.lflag) 8
  | 'p' => ((s.skip 1).put [code '0', code 'x']).number e ((s.word c).setWidth 64) 16
  | 'x' => (s.skip (numWords e.lflag)).number e (s.getuint c e.lflag) 16
  | '%' => (s.put [ch.toNat]).next
  | _ => ({ s with fmt := behindPercent c (s.fmt - 1) }.put [code '%']).next

/-- A character of the format is read. -/
def step (s : Printing) : Printing :=
  let ch := c.fmt s.fmt
  let past := { s with fmt := s.fmt + 1 }
  match s.place with
  | .text =>
      if ch = BitVec.ofNat 8 '%'.toNat then past.reswitch .start
      else if ch = 0#8 then { past with place := .returned }
      else past.put [ch.toNat]
  | .escape e => past.switch c e ch
  | .field e old =>
      let e := { e with precision := int (e.precision * 10 + old - code '0') }
      if (ch.toNat : Int) < code '0' ∨ code '9' < (ch.toNat : Int) then s.processPrecision e
      else { past with place := .field e ch.toNat }
  | .returned => s

end Printing

def Place.isReturned : Place → Bool
  | returned => true
  | _ => false

/-- `vprintfmt` has not returned. -/
def Going (s : Printing) : Prop := s.place.isReturned = false

instance : DecidablePred Going := fun s => inferInstanceAs (Decidable (s.place.isReturned = false))

/-- What `vprintfmt` writes, if it reads less than `fuel` characters of the format. -/
def vprintfmt (c : Call) (fuel : Nat) : Option (List Int) :=
  (whileLoop Going (fun s => some (s.step c)) fuel ⟨0, 0, [], .text⟩).map Printing.out

/-- `vprintfmt` returns and has written these characters. -/
def Prints (c : Call) (out : List Int) : Prop :=
  ∃ n, ∀ fuel, n ≤ fuel → vprintfmt c fuel = some out

/-! ## The conversions of numbers -/

/-- No flag, `0` and `-`. -/
inductive Flag where
  | none
  | zero
  | minus
deriving DecidableEq

/-- No width, a width in the format, or one that is an argument. -/
inductive Width where
  | none
  | digits (n : Nat) (hpos : 0 < n) (hlt : n < 2 ^ 31)
  | star (n : U32) (hlt : n.toNat < 2 ^ 31)

/-- `int`, `long` and `long long`. -/
inductive Length where
  | int
  | long
  | longLong

/-- `d`, `u`, `o` and `x`. -/
inductive Conversion where
  | d
  | u
  | o
  | x
deriving DecidableEq

def Length.bits : Length → Nat
  | int | long => 32
  | longLong => 64

def Length.lflag : Length → Nat
  | int => 0
  | long => 1
  | longLong => 2

def Conversion.base : Conversion → Nat
  | d | u => 10
  | o => 8
  | x => 16

def Conversion.letter : Conversion → Char
  | d => 'd'
  | u => 'u'
  | o => 'o'
  | x => 'x'

def Flag.chars : Flag → List Char
  | none => []
  | zero => ['0']
  | minus => ['-']

def Width.chars : Width → List Char
  | none => []
  | digits n _ _ => Nat.toDigits 10 n
  | star _ _ => ['*']

/-- The width that is asked for. -/
def Width.toNat : Width → Nat
  | none => 0
  | digits n _ _ => n
  | star n _ => n.toNat

def Width.args : Width → List U32
  | star n _ => [n]
  | _ => []

/-- A conversion, and the value that it is for. -/
structure Directive where
  flag : Flag
  width : Width
  length : Length
  conversion : Conversion
  value : BitVec length.bits

namespace Directive

variable (d : Directive)

/-- The escape sequence. -/
def chars : List Char :=
  '%' :: (d.flag.chars ++ (d.width.chars ++
    (List.replicate d.length.lflag 'l' ++ [d.conversion.letter])))

/-- The words of the argument list. -/
def args : List U32 :=
  d.width.args ++ match d.length with
    | .int | .long => [d.value.setWidth 32]
    | .longLong => [d.value.setWidth 32, (d.value >>> 32).setWidth 32]

def Negative : Prop := d.conversion = .d ∧ d.value.toInt < 0

instance : Decidable d.Negative := inferInstanceAs (Decidable (_ ∧ _))

def sign : List Int := if d.Negative then [code '-'] else []

def magnitude : Nat := if d.conversion = .d then d.value.toInt.natAbs else d.value.toNat

def digits : List Int := (Nat.toDigits d.conversion.base d.magnitude).map code

/-- The number with `k` characters of padding. -/
def padded (k : Nat) : List Int :=
  match d.flag with
  | .none => List.replicate k (code ' ') ++ d.sign ++ d.digits
  | .zero => d.sign ++ List.replicate k (code '0') ++ d.digits
  | .minus => d.sign ++ d.digits ++ List.replicate k (code ' ')

end Directive

/-- A text without conversions. -/
structure PlainText where
  chars : List U8
  plain : ∀ b, b ∈ chars → b ≠ BitVec.ofNat 8 '%'.toNat ∧ b ≠ 0#8

def PlainText.out (t : PlainText) : List Int := t.chars.map (fun b => (b.toNat : Int))

/-- The characters of a format. -/
def bytes (cs : List Char) : List U8 := cs.map (fun c => BitVec.ofNat 8 c.toNat)

/-- The call prints the number between two texts. -/
def callOf (before : PlainText) (d : Directive) (behind : PlainText) (str : U32 → List U8) :
    Call where
  fmt i := (before.chars ++ (bytes d.chars ++ (behind.chars ++ [0#8]))).getD i 0#8
  arg i := d.args.getD i 0#32
  str := str

/-! ## The digits and their padding -/

theorem int_eq {x : Int} (hge : -2 ^ 31 ≤ x) (hlt : x < 2 ^ 31) : int x = x := by
  unfold int
  exact Int.bmod_eq_of_le (by omega) (by omega)

theorem digit_eq {n : Nat} (h : n < 16) : digit n = code (Nat.digitChar n) := by
  have hall : ∀ n, n < 16 → digit n = code (Nat.digitChar n) := by decide
  exact hall n h

/-- `printnum` writes the digits, behind what the width has left. -/
theorem printnum_eq {num base : Nat} (hbase : 2 ≤ base) (hsmall : base ≤ 16) {width padc : Int}
    (hge : -2 ^ 31 + (Nat.toDigits base num).length ≤ width) (hlt : width < 2 ^ 31) :
    printnum num base width padc =
      List.replicate (width - (Nat.toDigits base num).length).toNat padc ++
        (Nat.toDigits base num).map code := by
  induction num using Nat.strongRecOn generalizing width with
  | ind num ih =>
      have hdigit : digit (num % base) = code (Nat.digitChar (num % base)) :=
        digit_eq (Nat.lt_of_lt_of_le (Nat.mod_lt _ (by omega)) hsmall)
      rw [printnum, hdigit]
      by_cases hmore : base ≤ num
      · rw [dif_pos ⟨hmore, hbase⟩]
        have hdigits := Nat.toDigits_of_base_le (by omega : 1 < base) hmore
        rw [hdigits, List.length_append, List.length_singleton] at hge
        have hwidth : int (width - 1) = width - 1 := int_eq (by omega) (by omega)
        rw [hwidth, ih _ (Nat.div_lt_self (by omega) hbase) (by push_cast at hge; omega) (by omega),
          hdigits, List.length_append, List.map_append, List.append_assoc, List.length_singleton]
        congr 3
        push_cast
        omega
      · rw [dif_neg (fun h => hmore h.1)]
        have hdigits := Nat.toDigits_of_lt_base (by omega : num < base)
        rw [hdigits] at hge ⊢
        rw [int_eq (by simp at hge; omega) (by omega), Nat.mod_eq_of_lt (by omega)]
        rfl

/-! ## The way through a format -/

section Walk

variable {c : Call} {i a : Nat} {out : List Int} {e : Escape}

/-- The states that `vprintfmt` goes through. -/
def Path (c : Call) : Printing → Printing → Prop := Turns Going (fun s => some (s.step c))

theorem Path.head {s s' t : Printing} (hgo : s.place.isReturned = false) (hstep : s.step c = s')
    (h : Path c s' t) : Path c s t :=
  Turns.head hgo (congrArg some hstep) h

theorem Path.trans {s s' t : Printing} (h : Path c s s') (h' : Path c s' t) : Path c s t :=
  Relation.ReflTransGen.trans h h'

theorem Path.one {s s' : Printing} (hgo : s.place.isReturned = false) (hstep : s.step c = s') :
    Path c s s' := Path.head hgo hstep (Turns.refl _)

/-- The format has these characters from there on. -/
def FmtAt (c : Call) : Nat → List U8 → Prop
  | _, [] => True
  | i, b :: bs => c.fmt i = b ∧ FmtAt c (i + 1) bs

theorem fmtAt_append {bs bs' : List U8} :
    FmtAt c i (bs ++ bs') ↔ FmtAt c i bs ∧ FmtAt c (i + bs.length) bs' := by
  induction bs generalizing i with
  | nil => simp [FmtAt]
  | cons b bs ih =>
      have hlen : i + (b :: bs).length = i + 1 + bs.length := by
        rw [List.length_cons]
        omega
      rw [hlen, List.cons_append, FmtAt, FmtAt, ih, and_assoc]

/-- Ordinary characters are written as they are. -/
theorem text_path {bs : List U8} (hplain : ∀ b, b ∈ bs → b ≠ BitVec.ofNat 8 '%'.toNat ∧ b ≠ 0#8)
    (hfmt : FmtAt c i bs) :
    Path c ⟨i, a, out, .text⟩
      ⟨i + bs.length, a, out ++ bs.map (fun b => (b.toNat : Int)), .text⟩ := by
  induction bs generalizing i out with
  | nil =>
      rw [List.map_nil, List.append_nil]
      exact Turns.refl _
  | cons b bs ih =>
      obtain ⟨hb, hrest⟩ := hfmt
      obtain ⟨hpercent, hnul⟩ := hplain b List.mem_cons_self
      have hstep : (Printing.mk i a out .text).step c =
          ⟨i + 1, a, out ++ [(b.toNat : Int)], .text⟩ := by
        unfold Printing.step
        dsimp only
        rw [hb, if_neg hpercent, if_neg hnul]
        rfl
      refine Path.head rfl hstep ?_
      have hrun : Path c ⟨i + 1, a, out ++ [(b.toNat : Int)], .text⟩ _ :=
        ih (fun b' hb' => hplain b' (List.mem_cons_of_mem _ hb')) hrest
      have hlen : i + (b :: bs).length = i + 1 + bs.length := by
        rw [List.length_cons]
        omega
      have hout : out ++ (b :: bs).map (fun b => (b.toNat : Int)) =
          out ++ [(b.toNat : Int)] ++ bs.map (fun b => (b.toNat : Int)) := by
        simp
      rw [hlen, hout]
      exact hrun

/-- The format ends. -/
theorem nul_path (hfmt : c.fmt i = 0#8) :
    Path c ⟨i, a, out, .text⟩ ⟨i + 1, a, out, .returned⟩ := by
  refine Path.one rfl ?_
  unfold Printing.step
  dsimp only
  rw [hfmt]
  rfl

/-- A `%`. -/
theorem percent_path (hfmt : c.fmt i = BitVec.ofNat 8 '%'.toNat) :
    Path c ⟨i, a, out, .text⟩ ⟨i + 1, a, out, .escape .start⟩ := by
  refine Path.one rfl ?_
  unfold Printing.step
  dsimp only
  rw [hfmt]
  rfl

/-- One character of an escape sequence. -/
theorem escape_path {s : Printing}
    (h : (Printing.mk (i + 1) a out (.escape e)).switch c e (c.fmt i) = s) :
    Path c ⟨i, a, out, .escape e⟩ s := Path.one rfl h

/-- The padding character of a flag. -/
def Flag.padc : Flag → Int
  | none => code ' '
  | zero => code '0'
  | minus => code '-'

theorem flag_path {flag : Flag} (hfmt : FmtAt c i (bytes flag.chars)) :
    Path c ⟨i, a, out, .escape .start⟩
      ⟨i + flag.chars.length, a, out, .escape { Escape.start with padc := flag.padc }⟩ := by
  cases flag with
  | none => exact Turns.refl _
  | zero => exact escape_path (by rw [hfmt.1]; rfl)
  | minus => exact escape_path (by rw [hfmt.1]; rfl)

/-- The character cannot belong to a width. -/
def NoDigit (b : U8) : Prop := (b.toNat : Int) < code '0' ∨ code '9' < (b.toNat : Int)

theorem le_ofDigitChars (ds : List Char) (n : Nat) : n ≤ Nat.ofDigitChars 10 ds n := by
  rw [Nat.ofDigitChars_eq_ofDigitChars_zero]
  have hpos : 0 < 10 ^ ds.length := Nat.pow_pos (by decide)
  have := Nat.le_mul_of_pos_left n hpos
  omega

/-- A digit is added to the width. -/
theorem precision_eq {p k : Nat} (hlt : 10 * p + k < 2 ^ 31) :
    int ((p : Int) * 10 + (code '0' + k) - code '0') = ((10 * p + k : Nat) : Int) := by
  rw [int_eq (by omega) (by omega)]
  push_cast
  omega

/-- The loop of the width field. -/
theorem field_path {ds : List Char} (hds : ∀ ch, ch ∈ ds → ch.isDigit = true) {p k : Nat}
    (hlt : Nat.ofDigitChars 10 ds (10 * p + k) < 2 ^ 31) {b : U8} (hb : NoDigit b)
    (hfmt : FmtAt c i (bytes ds ++ [b])) :
    Path c ⟨i, a, out, .field { e with precision := p } (code '0' + k)⟩
      ((Printing.mk (i + ds.length) a out .text).processPrecision
        { e with precision := Nat.ofDigitChars 10 ds (10 * p + k) }) := by
  induction ds generalizing p k i with
  | nil =>
      refine Path.one rfl ?_
      unfold Printing.step
      dsimp only
      rw [hfmt.1, precision_eq (by simpa using hlt), if_pos (show _ ∨ _ from hb)]
      rfl
  | cons ch ds ih =>
      obtain ⟨hch, hrest⟩ := hfmt
      have hdigit : 48 ≤ ch.toNat ∧ ch.toNat ≤ 57 :=
        Char.isDigit_iff_toNat.mp (hds ch List.mem_cons_self)
      have hbyte : (BitVec.ofNat 8 ch.toNat).toNat = ch.toNat := by
        rw [BitVec.toNat_ofNat]
        omega
      have hcode : ((BitVec.ofNat 8 ch.toNat).toNat : Int) = code '0' + (ch.toNat - 48 : Nat) := by
        rw [hbyte]
        show (ch.toNat : Int) = 48 + _
        omega
      have hno : ¬ NoDigit (BitVec.ofNat 8 ch.toNat) := by
        unfold NoDigit
        rw [hbyte]
        show ¬ ((ch.toNat : Int) < 48 ∨ 57 < (ch.toNat : Int))
        omega
      have hstep : (Printing.mk i a out (.field { e with precision := p } (code '0' + k))).step c =
          ⟨i + 1, a, out, .field { e with precision := ((10 * p + k : Nat) : Int) }
            (code '0' + (ch.toNat - 48 : Nat))⟩ := by
        have hle := le_ofDigitChars (ch :: ds) (10 * p + k)
        unfold Printing.step
        dsimp only
        rw [hch, precision_eq (by omega), if_neg (show ¬ (_ ∨ _) from hno), hcode]
      refine Path.head rfl hstep ?_
      rw [Nat.ofDigitChars_cons] at hlt ⊢
      have hlen : i + (ch :: ds).length = i + 1 + ds.length := by
        rw [List.length_cons]
        omega
      rw [hlen]
      exact ih (fun ch' hch' => hds ch' (List.mem_cons_of_mem _ hch')) hlt hrest

/-- A width starts with a digit that is not `0`. -/
theorem toDigits_cons {n : Nat} (hpos : 0 < n) :
    ∃ k ds, Nat.toDigits 10 n = Nat.digitChar k :: ds ∧ 0 < k ∧ k < 10 := by
  induction n using Nat.strongRecOn with
  | ind n ih =>
      by_cases hmore : 10 ≤ n
      · obtain ⟨k, ds, hdigits, hk⟩ := ih (n / 10) (by omega) (by omega)
        refine ⟨k, ds ++ [Nat.digitChar (n % 10)], ?_, hk⟩
        rw [Nat.toDigits_of_base_le (by decide) hmore, hdigits, List.cons_append]
      · exact ⟨n, [], Nat.toDigits_of_lt_base (by omega), hpos, by omega⟩

theorem switch_digit {s : Printing} {k : Nat} (hpos : 0 < k) (hlt : k < 10) :
    s.switch c e (BitVec.ofNat 8 (Nat.digitChar k).toNat) =
      { s with place := .field { e with precision := (0 : Nat) } (code '0' + k) } := by
  interval_cases k <;> rfl

/-- What `width` is then. -/
def Width.field : Width → Int
  | none => -1
  | digits n _ _ => n
  | star n _ => n.toNat

theorem width_path {w : Width} (hwidth : e.width = -1) (hprecision : e.precision = -1) {b : U8}
    (hb : NoDigit b) (hfmt : FmtAt c i (bytes w.chars ++ [b]))
    (harg : ∀ n, n ∈ w.args → c.arg a = n) :
    Path c ⟨i, a, out, .escape e⟩
      ⟨i + w.chars.length, a + w.args.length, out, .escape { e with width := w.field }⟩ := by
  have hset : ∀ (j l : Nat) (place : Place) (n : Int),
      (Printing.mk j l out place).processPrecision { e with precision := n } =
        ⟨j, l, out, .escape { e with width := n }⟩ := by
    intro j l place n
    unfold Printing.processPrecision Printing.reswitch
    rw [if_pos (by rw [hwidth]; decide)]
    simp [hprecision]
  cases w with
  | none =>
      have hsame : ({ e with width := Width.none.field } : Escape) = e := by
        show ({ e with width := -1 } : Escape) = e
        rw [← hwidth]
      rw [hsame]
      exact Turns.refl _
  | digits n hpos hlt =>
      obtain ⟨k, ds, hdigits, hk, hten⟩ := toDigits_cons hpos
      have hvalue : Nat.ofDigitChars 10 ds (10 * 0 + k) = n := by
        rw [← Nat.ofDigitChars_cons_digitChar_of_lt_ten hten, ← hdigits]
        exact Nat.ofDigitChars_toDigits (by decide) (by decide)
      have hds : ∀ ch, ch ∈ ds → ch.isDigit = true := fun ch hch =>
        Nat.isDigit_of_mem_toDigits (b := 10) (n := n) (by decide) (by decide)
          (by rw [hdigits]; exact List.mem_cons_of_mem _ hch)
      have hchars : (Width.digits n hpos hlt).chars = Nat.digitChar k :: ds := hdigits
      rw [hchars] at hfmt ⊢
      have hstep : (Printing.mk i a out (.escape e)).step c =
          ⟨i + 1, a, out, .field { e with precision := (0 : Nat) } (code '0' + k)⟩ := by
        unfold Printing.step
        dsimp only
        rw [hfmt.1]
        exact switch_digit hk hten
      refine Path.head rfl hstep ?_
      have hrun : Path c
          ⟨i + 1, a, out, .field { e with precision := (0 : Nat) } (code '0' + k)⟩ _ :=
        field_path hds (by omega) hb hfmt.2
      rw [hset, hvalue] at hrun
      have hlen : i + (Nat.digitChar k :: ds).length = i + 1 + ds.length := by
        rw [List.length_cons]
        omega
      rw [hlen]
      exact hrun
  | star n hlt =>
      refine escape_path ?_
      have hn : c.arg a = n := harg n List.mem_cons_self
      have hswitch : (Printing.mk (i + 1) a out (.escape e)).switch c e (c.fmt i) =
          (Printing.mk (i + 1) (a + 1) out (.escape e)).processPrecision
            { e with precision := (c.arg a).toInt } := by
        rw [hfmt.1]
        rfl
      rw [hswitch, hset, hn, BitVec.toInt_eq_toNat_of_lt (by omega)]
      rfl

theorem lflag_path {n : Nat} (hfmt : FmtAt c i (bytes (List.replicate n 'l'))) :
    Path c ⟨i, a, out, .escape e⟩ ⟨i + n, a, out, .escape { e with lflag := e.lflag + n }⟩ := by
  induction n generalizing i e with
  | zero => exact Turns.refl _
  | succ n ih =>
      refine (escape_path
        (s := ⟨i + 1, a, out, .escape { e with lflag := e.lflag + 1 }⟩) ?_).trans ?_
      · rw [hfmt.1]
        rfl
      · have hrun : Path c ⟨i + 1, a, out, .escape { e with lflag := e.lflag + 1 }⟩ _ := ih hfmt.2
        rw [Nat.add_assoc, Nat.add_comm 1 n] at hrun
        have hlflag : e.lflag + 1 + n = e.lflag + (n + 1) := by omega
        rw [← hlflag]
        exact hrun

/-- What `vprintfmt` writes for a number. -/
def Directive.printed (d : Directive) : List Int :=
  d.sign ++ List.replicate (d.width.toNat - d.digits.length) d.flag.padc ++ d.digits

/-- The words of the value. -/
def Directive.ValueAt (d : Directive) (c : Call) (a : Nat) : Prop :=
  c.arg a = d.value.setWidth 32 ∧
    (d.length.lflag = 2 → c.arg (a + 1) = (d.value >>> 32).setWidth 32)

/-- A `long long` is put together from its words. -/
theorem doubleWord_eq (v : BitVec 64) : (v >>> 32).setWidth 32 ++ v.setWidth 32 = v := by
  refine BitVec.eq_of_getLsbD_eq (fun j hj => ?_)
  rw [BitVec.getLsbD_append]
  split
  · simp [*]
  · have hsum : 32 + (j - 32) = j := by omega
    have hlt : j - 32 < 32 := by omega
    simp [hsum, hlt]

theorem signExtend_word (v : U32) : ((v.setWidth 32).signExtend 64).toInt = v.toInt := by
  rw [BitVec.setWidth_eq]
  exact BitVec.toInt_signExtend_of_le (by decide)

theorem setWidth_word (v : U32) : ((v.setWidth 32).setWidth 64).toNat = v.toNat := by
  rw [BitVec.setWidth_eq]
  exact BitVec.toNat_setWidth_of_le (by decide)

theorem getint_toInt {d : Directive} (harg : d.ValueAt c a) :
    ((Printing.mk i a out (.escape e)).getint c d.length.lflag).toInt = d.value.toInt := by
  obtain ⟨flag, width, length, conversion, value⟩ := d
  obtain ⟨hlow, hhigh⟩ := harg
  cases length with
  | int | long =>
      show ((c.arg a).signExtend 64).toInt = value.toInt
      rw [hlow]
      exact signExtend_word value
  | longLong =>
      show (c.arg (a + 1) ++ c.arg a).toInt = value.toInt
      rw [hlow, hhigh rfl]
      exact congrArg BitVec.toInt (doubleWord_eq value)

theorem getuint_toNat {d : Directive} (harg : d.ValueAt c a) :
    ((Printing.mk i a out (.escape e)).getuint c d.length.lflag).toNat = d.value.toNat := by
  obtain ⟨flag, width, length, conversion, value⟩ := d
  obtain ⟨hlow, hhigh⟩ := harg
  cases length with
  | int | long =>
      show ((c.arg a).setWidth 64).toNat = value.toNat
      rw [hlow]
      exact setWidth_word value
  | longLong =>
      show (c.arg (a + 1) ++ c.arg a).toNat = value.toNat
      rw [hlow, hhigh rfl]
      exact congrArg BitVec.toNat (doubleWord_eq value)

/-- A `long long` has at most 64 digits. -/
theorem length_toDigits_le {base n : Nat} (hbase : 2 ≤ base) (hlt : n < 2 ^ 64) :
    (Nat.toDigits base n).length ≤ 64 := by
  have hpow : 2 ^ 64 ≤ base ^ 64 := Nat.pow_le_pow_left hbase 64
  exact (Nat.length_toDigits_le_iff hbase (by decide)).mpr (Nat.lt_of_lt_of_le hlt hpow)

/-- The digits that `printnum` writes for the value of a directive. -/
theorem printnum_magnitude (d : Directive) (hlt : d.magnitude < 2 ^ 64) :
    printnum d.magnitude d.conversion.base d.width.field d.flag.padc =
      List.replicate (d.width.toNat - d.digits.length) d.flag.padc ++ d.digits := by
  have hbase : 8 ≤ d.conversion.base ∧ d.conversion.base ≤ 16 := by
    cases d.conversion <;> decide
  have hlen : (Nat.toDigits d.conversion.base d.magnitude).length ≤ 64 :=
    length_toDigits_le (by omega) hlt
  have hfield : -1 ≤ d.width.field ∧ d.width.field < 2 ^ 31 ∧
      d.width.field.toNat = d.width.toNat := by
    cases d.width with
    | none => decide
    | digits n hpos hlt =>
        simp only [Width.field, Width.toNat]
        omega
    | star n hlt =>
        simp only [Width.field, Width.toNat]
        omega
  rw [printnum_eq (by omega) hbase.2 (by omega) hfield.2.1]
  unfold Directive.digits
  rw [List.length_map]
  congr 2
  omega

/-- `%d` writes the sign and then the padding. -/
theorem signed_eq (s : Printing) (num : BitVec 64) :
    s.signed e num = ⟨s.fmt, s.ap,
      s.out ++ ((if num.toInt < 0 then [code '-'] else []) ++
        printnum num.toInt.natAbs 10 e.width e.padc), .text⟩ := by
  have hint := BitVec.toInt_eq_toNat_cond num
  have hlt := num.isLt
  unfold Printing.signed
  split
  · have hneg : (-num).toNat = num.toInt.natAbs := by
      rw [BitVec.toNat_neg]
      split at hint <;> omega
    unfold Printing.number
    rw [hneg, ← List.append_assoc]
    rfl
  · have hpos : num.toNat = num.toInt.natAbs := by
      split at hint <;> omega
    unfold Printing.number
    rw [hpos]
    rfl

theorem conversion_path {d : Directive} (hpadc : e.padc = d.flag.padc)
    (hwidth : e.width = d.width.field) (hlflag : e.lflag = d.length.lflag)
    (harg : d.ValueAt c a) (hfmt : FmtAt c i (bytes [d.conversion.letter])) :
    Path c ⟨i, a, out, .escape e⟩
      ⟨i + 1, a + Printing.numWords d.length.lflag, out ++ d.printed, .text⟩ := by
  refine escape_path ?_
  rw [hfmt.1]
  rw [← hlflag]
  have hint : ((Printing.mk (i + 1) a out (.escape e)).getint c e.lflag).toInt = d.value.toInt := by
    rw [hlflag]
    exact getint_toInt harg
  have hnat : ((Printing.mk (i + 1) a out (.escape e)).getuint c e.lflag).toNat =
      d.value.toNat := by
    rw [hlflag]
    exact getuint_toNat harg
  generalize hnum : (Printing.mk (i + 1) a out (.escape e)).getint c e.lflag = num at hint
  generalize hunum : (Printing.mk (i + 1) a out (.escape e)).getuint c e.lflag = unum at hnat
  have hlt : d.magnitude < 2 ^ 64 := by
    have hge := BitVec.le_toInt num
    have hle := BitVec.toInt_lt (x := num)
    have hult := unum.isLt
    unfold Directive.magnitude
    split <;> omega
  have hprinted : d.printed = d.sign ++
      printnum d.magnitude d.conversion.base e.width e.padc := by
    rw [hwidth, hpadc, printnum_magnitude d hlt, ← List.append_assoc]
    rfl
  have hsigned : d.conversion = .d →
      d.sign = (if num.toInt < 0 then [code '-'] else []) ∧ d.magnitude = num.toInt.natAbs := by
    intro hd
    simp [Directive.sign, Directive.Negative, Directive.magnitude, hd, hint]
  have hunsigned : d.conversion ≠ .d → d.sign = [] ∧ d.magnitude = unum.toNat := by
    intro hd
    simp [Directive.sign, Directive.Negative, Directive.magnitude, hd, hnat]
  rw [hprinted]
  cases hconv : d.conversion with
  | d =>
      obtain ⟨hsign, hmagnitude⟩ := hsigned hconv
      rw [hsign, hmagnitude, ← hnum]
      exact signed_eq _ _
  | u | o | x =>
      obtain ⟨hsign, hmagnitude⟩ := hunsigned (by rw [hconv]; decide)
      rw [hsign, hmagnitude, ← hunum]
      rfl

theorem fmtAt_cons {b : U8} {bs : List U8} (h : FmtAt c i (b :: bs)) : FmtAt c i [b] :=
  ⟨h.1, trivial⟩

theorem bytes_append (cs cs' : List Char) : bytes (cs ++ cs') = bytes cs ++ bytes cs' :=
  List.map_append

/-- Behind the width there is an `l` or the letter. -/
theorem behind_width (d : Directive) :
    ∃ b bs, bytes (List.replicate d.length.lflag 'l' ++ [d.conversion.letter]) = b :: bs ∧
      NoDigit b := by
  have hl : NoDigit (BitVec.ofNat 8 'l'.toNat) := by
    unfold NoDigit
    decide
  have hletter : NoDigit (BitVec.ofNat 8 d.conversion.letter.toNat) := by
    unfold NoDigit
    cases d.conversion <;> decide
  cases d.length with
  | int => exact ⟨_, _, rfl, hletter⟩
  | long | longLong => exact ⟨_, _, rfl, hl⟩

/-- A conversion of a number, anywhere in a format. -/
theorem directive_path {d : Directive} (hfmt : FmtAt c i (bytes d.chars))
    (hstar : ∀ n, n ∈ d.width.args → c.arg a = n) (harg : d.ValueAt c (a + d.width.args.length)) :
    Path c ⟨i, a, out, .text⟩ ⟨i + d.chars.length,
      a + d.width.args.length + Printing.numWords d.length.lflag, out ++ d.printed, .text⟩ := by
  obtain ⟨b, bs, hbehind, hb⟩ := behind_width d
  have hchars : bytes d.chars = BitVec.ofNat 8 '%'.toNat :: (bytes d.flag.chars ++
      (bytes d.width.chars ++
        bytes (List.replicate d.length.lflag 'l' ++ [d.conversion.letter]))) := by
    rw [← bytes_append, ← bytes_append]
    rfl
  rw [hchars] at hfmt
  obtain ⟨hpercent, hrest⟩ := hfmt
  obtain ⟨hflag, hrest⟩ := fmtAt_append.mp hrest
  obtain ⟨hwidth, hrest⟩ := fmtAt_append.mp hrest
  have hnext := hrest
  rw [hbehind] at hnext
  have hfield := fmtAt_append.mpr ⟨hwidth, fmtAt_cons hnext⟩
  rw [bytes_append] at hrest
  obtain ⟨hls, hletter⟩ := fmtAt_append.mp hrest
  simp only [bytes, List.length_map, List.length_replicate] at hfield hls hletter
  refine (percent_path hpercent).trans ((flag_path hflag).trans
    ((width_path rfl rfl hb hfield hstar).trans ((lflag_path hls).trans ?_)))
  have hlen : i + d.chars.length =
      i + 1 + d.flag.chars.length + d.width.chars.length + d.length.lflag + 1 := by
    simp only [Directive.chars, List.length_cons, List.length_append, List.length_replicate,
      List.length_nil]
    omega
  rw [hlen]
  exact conversion_path rfl rfl (Nat.zero_add _) harg hletter

end Walk

theorem fmtAt_getD (pre bs post : List U8) {c : Call}
    (hfmt : ∀ i, c.fmt i = (pre ++ (bs ++ post)).getD i 0#8) : FmtAt c pre.length bs := by
  induction bs generalizing pre with
  | nil => trivial
  | cons b bs ih =>
      refine ⟨by rw [hfmt]; simp, ?_⟩
      have hrest := ih (pre ++ [b]) (fun i => by rw [hfmt]; simp)
      rwa [List.length_append, List.length_singleton] at hrest

theorem Prints.unique {c : Call} {out out' : List Int} (h : Prints c out) (h' : Prints c out') :
    out = out' := by
  obtain ⟨n, hn⟩ := h
  obtain ⟨n', hn'⟩ := h'
  have heq := (hn (max n n') (Nat.le_max_left _ _)).symm.trans (hn' _ (Nat.le_max_right _ _))
  exact Option.some.inj heq

/-- Whatever the fuel, nothing else is written. -/
theorem Prints.eq_of_vprintfmt {c : Call} {out out' : List Int} (h : Prints c out) {fuel : Nat}
    (h' : vprintfmt c fuel = some out') : out' = out := by
  obtain ⟨n, hn⟩ := h
  obtain ⟨s, hs, rfl⟩ := Option.map_eq_some_iff.mp h'
  have hmore := whileLoop_mono hs (Nat.le_max_right n fuel)
  have heq := hn (max n fuel) (Nat.le_max_left _ _)
  unfold vprintfmt at heq
  rw [hmore] at heq
  exact Option.some.inj heq

/-- The way to the end of a format. -/
theorem Path.prints {c : Call} {out : List Int} {i a : Nat}
    (h : Path c ⟨0, 0, [], .text⟩ ⟨i, a, out, .returned⟩) : Prints c out := by
  obtain ⟨n, hn⟩ := Turns.whileLoop h (show ¬ (true = false) from nofun)
  refine ⟨n, fun fuel hfuel => ?_⟩
  unfold vprintfmt
  rw [hn fuel hfuel]
  rfl

/-- What a call with one conversion writes. -/
theorem callOf_prints (before : PlainText) (d : Directive) (behind : PlainText)
    (str : U32 → List U8) :
    Prints (callOf before d behind str) (before.out ++ d.printed ++ behind.out) := by
  have hbefore : FmtAt (callOf before d behind str) 0 before.chars :=
    fmtAt_getD [] before.chars (bytes d.chars ++ (behind.chars ++ [0#8])) (fun _ => rfl)
  have hdirective : FmtAt (callOf before d behind str) before.chars.length (bytes d.chars) :=
    fmtAt_getD before.chars (bytes d.chars) (behind.chars ++ [0#8]) (fun _ => rfl)
  have hbehind : FmtAt (callOf before d behind str) (before.chars.length + d.chars.length)
      (behind.chars ++ [0#8]) := by
    have h := fmtAt_getD (c := callOf before d behind str) (before.chars ++ bytes d.chars)
      (behind.chars ++ [0#8]) [] (fun i => by simp [callOf])
    rwa [List.length_append, bytes, List.length_map] at h
  obtain ⟨htext, hnul⟩ := fmtAt_append.mp hbehind
  have hstar : ∀ n, n ∈ d.width.args → (callOf before d behind str).arg 0 = n := by
    intro n hn
    show d.args.getD 0 0#32 = n
    unfold Directive.args
    cases hwidth : d.width with
    | none | digits k hpos hlt => rw [hwidth] at hn; cases hn
    | star k hlt =>
        rw [hwidth] at hn
        rw [List.mem_singleton.mp hn]
        rfl
  have harg : d.ValueAt (callOf before d behind str) (0 + d.width.args.length) := by
    obtain ⟨flag, width, length, conversion, value⟩ := d
    cases length with
    | int | long => exact ⟨by cases width <;> rfl, nofun⟩
    | longLong => exact ⟨by cases width <;> rfl, fun _ => by cases width <;> rfl⟩
  have hfirst : Path (callOf before d behind str) ⟨0, 0, [], .text⟩ ⟨_, _, _, _⟩ :=
    text_path before.plain hbefore
  rw [Nat.zero_add, List.nil_append] at hfirst
  exact Path.prints (hfirst.trans ((directive_path hdirective hstar harg).trans
    ((text_path behind.plain htext).trans (nul_path hnul.1))))

/-! ## When the number is right -/

/-- The number is written with no more padding than the width asks for. -/
def PadsToWidth (before : PlainText) (d : Directive) (behind : PlainText)
    (str : U32 → List U8) : Prop :=
  Prints (callOf before d behind str) (before.out ++
    d.padded (d.width.toNat - (d.sign.length + d.digits.length)) ++ behind.out)

/-- The number is written with enough padding. -/
def PadsEnough (before : PlainText) (d : Directive) (behind : PlainText)
    (str : U32 → List U8) : Prop :=
  ∃ k, d.width.toNat ≤ (d.padded k).length ∧
    Prints (callOf before d behind str) (before.out ++ d.padded k ++ behind.out)

section Padding

variable {before behind : PlainText} {d : Directive} {str : U32 → List U8}

theorem prints_iff {cs : List Int} :
    Prints (callOf before d behind str) (before.out ++ cs ++ behind.out) ↔ d.printed = cs := by
  constructor
  · intro h
    have heq := (callOf_prints before d behind str).unique h
    exact List.append_cancel_left (List.append_cancel_right heq)
  · rintro rfl
    exact callOf_prints before d behind str

theorem padded_length (k : Nat) :
    (d.padded k).length = d.sign.length + k + d.digits.length := by
  unfold Directive.padded
  cases d.flag <;> simp only [List.length_append, List.length_replicate] <;> omega

theorem printed_length : d.printed.length =
    d.sign.length + (d.width.toNat - d.digits.length) + d.digits.length := by
  simp only [Directive.printed, List.length_append, List.length_replicate]

theorem printed_short (hle : d.width.toNat ≤ d.digits.length) : d.printed = d.sign ++ d.digits := by
  unfold Directive.printed
  rw [Nat.sub_eq_zero_of_le hle, List.replicate_zero, List.append_nil]

theorem padded_zero : d.padded 0 = d.sign ++ d.digits := by
  unfold Directive.padded
  cases d.flag <;> simp

theorem sign_length : d.sign.length = if d.Negative then 1 else 0 := by
  unfold Directive.sign
  split <;> rfl

/-- The digits come from the table. -/
theorem mem_toDigits {base n : Nat} (hbase : 1 < base) {ch : Char}
    (h : ch ∈ Nat.toDigits base n) : ∃ k, k < base ∧ ch = Nat.digitChar k := by
  induction n using Nat.strongRecOn with
  | ind n ih =>
      by_cases hmore : base ≤ n
      · rw [Nat.toDigits_of_base_le hbase hmore, List.mem_append, List.mem_singleton] at h
        rcases h with h | rfl
        · exact ih _ (Nat.div_lt_self (by omega) hbase) h
        · exact ⟨_, Nat.mod_lt _ (by omega), rfl⟩
      · rw [Nat.toDigits_of_lt_base (by omega), List.mem_singleton] at h
        exact ⟨n, by omega, h⟩

/-- A number does not start with `-`. -/
theorem digits_cons (d : Directive) : ∃ x xs, d.digits = x :: xs ∧ x ≠ code '-' := by
  have hbase : 8 ≤ d.conversion.base ∧ d.conversion.base ≤ 16 := by
    cases d.conversion <;> decide
  unfold Directive.digits
  cases hdigits : Nat.toDigits d.conversion.base d.magnitude with
  | nil => exact absurd hdigits Nat.toDigits_ne_nil
  | cons ch chs =>
      obtain ⟨k, hk, rfl⟩ := mem_toDigits (by omega) (hdigits ▸ List.mem_cons_self)
      have hall : ∀ k, k < 16 → code (Nat.digitChar k) ≠ code '-' := by decide
      exact ⟨_, _, rfl, hall k (by omega)⟩

/-- With the flag `-`, the padding is in front of the digits. -/
theorem printed_minus (hflag : d.flag = .minus) (hlt : d.digits.length < d.width.toNat) (k : Nat) :
    d.printed ≠ d.padded k := by
  obtain ⟨x, xs, hdigits, hx⟩ := digits_cons d
  obtain ⟨m, hm⟩ := Nat.exists_eq_add_of_lt hlt
  have hpad : d.width.toNat - d.digits.length = m + 1 := by omega
  unfold Directive.printed Directive.padded
  rw [hpad, hflag, hdigits]
  dsimp only
  rw [List.append_assoc, List.append_assoc]
  intro h
  have hhead := List.append_cancel_left h
  rw [List.replicate_succ, List.cons_append, List.cons_append] at hhead
  exact hx (List.cons.inj hhead).1.symm

/-- The padding of a negative number is behind its sign. -/
theorem printed_negative (hneg : d.Negative) (hflag : d.flag = .none)
    (hlt : d.digits.length < d.width.toNat) (k : Nat) : d.printed ≠ d.padded k := by
  intro h
  have hlen := congrArg List.length h
  rw [printed_length, padded_length] at hlen
  have hsign : d.sign = [code '-'] := if_pos hneg
  unfold Directive.printed Directive.padded at h
  rw [hflag, hsign] at h
  cases k with
  | zero => omega
  | succ k =>
      rw [List.replicate_succ] at h
      exact absurd (List.cons.inj h).1 (by decide)

/-- The sign is not counted. -/
theorem printed_sign (hneg : d.Negative) (hlt : d.digits.length < d.width.toNat) :
    d.printed ≠ d.padded (d.width.toNat - (d.sign.length + d.digits.length)) := by
  intro h
  have hlen := congrArg List.length h
  rw [printed_length, padded_length, sign_length, if_pos hneg] at hlen
  omega

/-- A number that is not negative is padded right on the left. -/
theorem printed_unsigned (hneg : ¬ d.Negative) (hflag : d.flag ≠ .minus) :
    d.printed = d.padded (d.width.toNat - d.digits.length) := by
  have hsign : d.sign = [] := if_neg hneg
  unfold Directive.printed Directive.padded
  rw [hsign]
  cases hd : d.flag with
  | none => rw [List.append_nil, List.nil_append]; rfl
  | zero => rfl
  | minus => exact absurd hd hflag

theorem padsToWidth_iff : PadsToWidth before d behind str ↔
    (d.width.toNat ≤ d.digits.length ∨ (d.flag ≠ .minus ∧ ¬ d.Negative)) := by
  unfold PadsToWidth
  rw [prints_iff]
  constructor
  · intro h
    by_contra hnot
    obtain ⟨hlt, hor⟩ := not_or.mp hnot
    have hlt' : d.digits.length < d.width.toNat := Nat.lt_of_not_le hlt
    by_cases hneg : d.Negative
    · exact printed_sign hneg hlt' h
    · have hflag : d.flag = .minus := by
        by_contra hflag
        exact hor ⟨hflag, hneg⟩
      exact printed_minus hflag hlt' _ h
  · rintro (hle | ⟨hflag, hneg⟩)
    · rw [printed_short hle, Nat.sub_eq_zero_of_le (by omega), padded_zero]
    · rw [printed_unsigned hneg hflag, sign_length, if_neg hneg, Nat.zero_add]

theorem padsEnough_iff : PadsEnough before d behind str ↔
    (d.width.toNat ≤ d.digits.length ∨ d.flag = .zero ∨ (d.flag = .none ∧ ¬ d.Negative)) := by
  unfold PadsEnough
  simp only [prints_iff]
  constructor
  · rintro ⟨k, -, h⟩
    by_contra hnot
    obtain ⟨hlt, hor⟩ := not_or.mp hnot
    have hlt' : d.digits.length < d.width.toNat := Nat.lt_of_not_le hlt
    cases hflag : d.flag with
    | none =>
        have hneg : d.Negative := by
          by_contra hneg
          exact hor (Or.inr ⟨hflag, hneg⟩)
        exact printed_negative hneg hflag hlt' k h
    | zero => exact hor (Or.inl hflag)
    | minus => exact printed_minus hflag hlt' k h
  · have henough : d.width.toNat ≤ (d.padded (d.width.toNat - d.digits.length)).length := by
      rw [padded_length]
      omega
    rintro (hle | hflag | ⟨hflag, hneg⟩)
    · refine ⟨_, henough, ?_⟩
      rw [printed_short hle, Nat.sub_eq_zero_of_le hle, padded_zero]
    · refine ⟨_, henough, ?_⟩
      unfold Directive.printed Directive.padded
      rw [hflag]
      rfl
    · exact ⟨_, henough, printed_unsigned hneg (by rw [hflag]; decide)⟩

end Padding

/-- Exactly when the conversion writes the number as it should, with the least padding that
the width asks for and with any padding that is enough. -/
theorem number_padded_iff (before : PlainText) (d : Directive) (behind : PlainText)
    (str : U32 → List U8) :
    (PadsToWidth before d behind str ↔
      (d.width.toNat ≤ d.digits.length ∨ (d.flag ≠ .minus ∧ ¬ d.Negative))) ∧
    (PadsEnough before d behind str ↔
      (d.width.toNat ≤ d.digits.length ∨ d.flag = .zero ∨ (d.flag = .none ∧ ¬ d.Negative))) :=
  ⟨padsToWidth_iff, padsEnough_iff⟩

/-- `printf("%5d", -42)`. -/
def minusFortyTwo : Directive where
  flag := .none
  width := .digits 5 (by decide) (by decide)
  length := .int
  conversion := .d
  value := (-42 : BitVec 32)

/-- It prints `-   42`. -/
theorem not_number_padded : ¬ ∀ (before : PlainText) (d : Directive) (behind : PlainText)
    (str : U32 → List U8), PadsEnough before d behind str := by
  intro h
  have hpads := padsEnough_iff.mp (h ⟨[], nofun⟩ minusFortyTwo ⟨[], nofun⟩ (fun _ => []))
  exact absurd hpads (by decide)

end Printfmt

end Jos

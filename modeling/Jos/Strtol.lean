import Jos.Formats

/-!
# Reading numbers, `strtol` in `lib/string.c`

`strtol` skips blanks, takes a sign, finds the base of a number from its prefix, and reads
digits as long as there are any.  It does not detect an overflow: a `long` has 32 bits.

A string is the characters in front of its `NUL`, and `*endptr` is what `strtol` has not read.
What `vprintfmt` prints for a number is read back as this number.
-/

namespace Jos

namespace Strtol

open Printfmt Formats

/-- The character as a byte. -/
def byte (ch : Char) : U8 := BitVec.ofNat 8 ch.toNat

/-- `while (*s == ' ' || *s == '\t') s++;` -/
def skipBlanks : List U8 → List U8
  | [] => []
  | b :: bs => if b = byte ' ' ∨ b = byte '\t' then skipBlanks bs else b :: bs

/-- `neg`, and what is behind the sign. -/
def sign : List U8 → Bool × List U8
  | [] => (false, [])
  | b :: bs =>
      if b = byte '+' then (false, bs)
      else if b = byte '-' then (true, bs)
      else (false, b :: bs)

/-- The base, and what is behind its prefix. -/
def basePrefix (base : Int) (s : List U8) : Int × List U8 :=
  if (base = 0 ∨ base = 16) ∧ s.getD 0 0#8 = byte '0' ∧ s.getD 1 0#8 = byte 'x' then
    (16, s.drop 2)
  else if base = 0 ∧ s.getD 0 0#8 = byte '0' then (8, s.drop 1)
  else if base = 0 then (10, s)
  else (base, s)

/-- `dig`. -/
def digitOf (b : U8) : Option Nat :=
  if '0'.toNat ≤ b.toNat ∧ b.toNat ≤ '9'.toNat then some (b.toNat - '0'.toNat)
  else if 'a'.toNat ≤ b.toNat ∧ b.toNat ≤ 'z'.toNat then some (b.toNat - 'a'.toNat + 10)
  else if 'A'.toNat ≤ b.toNat ∧ b.toNat ≤ 'Z'.toNat then some (b.toNat - 'A'.toNat + 10)
  else none

/-- The loop of the digits. -/
def digits (base : Int) (val : U32) : List U8 → U32 × List U8
  | [] => (val, [])
  | b :: bs =>
      match digitOf b with
      | none => (val, b :: bs)
      | some dig =>
          if base ≤ dig then (val, b :: bs)
          else digits base (val * BitVec.ofInt 32 base + BitVec.ofNat 32 dig) bs

/-- `strtol`: what it returns and what it leaves. -/
def strtol (s : List U8) (base : Int) : U32 × List U8 :=
  let s := skipBlanks s
  let (neg, s) := sign s
  let (base, s) := basePrefix base s
  let (val, s) := digits base 0#32 s
  (if neg then -val else val, s)

/-- The call prints this value, with its format and with the argument of that number. -/
def PrintsValue (c : Call) (format : List U8) (a : Nat) (v : U32) : Prop :=
  FmtAt c 0 (format ++ [0#8]) ∧ c.arg a = v

/-- `strtol` reads the whole string that is printed, and gives the value. -/
def ReadsBack (c : Call) (base : Int) (v : U32) : Prop :=
  ∃ out, Prints c out ∧ strtol (out.map (BitVec.ofInt 8)) base = (v, [])

/-! ## Reading digits -/

/-- A digit of one of the three bases, as it is printed. -/
theorem digitOf_digitChar {k : Nat} (hk : k < 16) : digitOf (byte (Nat.digitChar k)) = some k := by
  have hall : ∀ k, k < 16 → digitOf (byte (Nat.digitChar k)) = some k := by decide
  exact hall k hk

theorem digits_cons {base k : Nat} (hle : base ≤ 16) (hk : k < base) (val : U32) (rest : List U8) :
    digits base val (byte (Nat.digitChar k) :: rest) =
      digits base (val * BitVec.ofNat 32 base + BitVec.ofNat 32 k) rest := by
  rw [digits, digitOf_digitChar (by omega)]
  dsimp only
  rw [if_neg (by omega), BitVec.ofInt_natCast]

/-- The digits of a number are read as the number. -/
theorem digits_toDigits {base : Nat} (hbase : 1 < base) (hle : base ≤ 16) (n : Nat)
    (rest : List U8) :
    digits base 0#32 (bytes (Nat.toDigits base n) ++ rest) =
      digits base (BitVec.ofNat 32 n) rest := by
  induction n using Nat.strongRecOn generalizing rest with
  | ind n ih =>
      by_cases hmore : base ≤ n
      · rw [Nat.toDigits_of_base_le hbase hmore, bytes_append, List.append_assoc,
          ih _ (Nat.div_lt_self (by omega) hbase)]
        have hlast : n % base < base := Nat.mod_lt n (by omega)
        have hcons := digits_cons hle hlast (BitVec.ofNat 32 (n / base)) rest
        have hvalue : BitVec.ofNat 32 (n / base) * BitVec.ofNat 32 base +
            BitVec.ofNat 32 (n % base) = BitVec.ofNat 32 n := by
          rw [← BitVec.ofNat_mul, ← BitVec.ofNat_add, Nat.div_add_mod']
        rw [hvalue] at hcons
        exact hcons
      · have hcons := digits_cons hle (by omega : n < base) 0#32 rest
        rw [BitVec.zero_mul, BitVec.zero_add] at hcons
        rw [Nat.toDigits_of_lt_base (by omega)]
        exact hcons

theorem digits_zeros {base : Nat} (hbase : 1 < base) (hle : base ≤ 16) (k : Nat) (rest : List U8) :
    digits base 0#32 (List.replicate k (byte '0') ++ rest) = digits base 0#32 rest := by
  induction k with
  | zero => rfl
  | succ k ih =>
      have hcons := digits_cons hle (by omega : 0 < base) 0#32 (List.replicate k (byte '0') ++ rest)
      rw [BitVec.zero_mul, BitVec.zero_add] at hcons
      rw [List.replicate_succ, List.cons_append, ← ih]
      exact hcons

/-! ## In front of the digits -/

/-- The characters of a printed number. -/
def Numeral (s : List U8) : Prop := ∀ b, b ∈ s → ∃ k, k < 16 ∧ b = byte (Nat.digitChar k)

/-- It is no blank, no sign and no part of a prefix but its zero. -/
theorem Numeral.plain {s : List U8} (hs : Numeral s) {b : U8} (hb : b ∈ s) :
    (b ≠ byte ' ' ∧ b ≠ byte '\t') ∧ (b ≠ byte '+' ∧ b ≠ byte '-') ∧ b ≠ byte 'x' := by
  have hall : ∀ k, k < 16 →
      (byte (Nat.digitChar k) ≠ byte ' ' ∧ byte (Nat.digitChar k) ≠ byte '\t') ∧
      (byte (Nat.digitChar k) ≠ byte '+' ∧ byte (Nat.digitChar k) ≠ byte '-') ∧
      byte (Nat.digitChar k) ≠ byte 'x' := by decide
  obtain ⟨k, hk, rfl⟩ := hs b hb
  exact hall k hk

theorem numeral_toDigits {base : Nat} (hbase : 1 < base) (hle : base ≤ 16) (n : Nat) :
    Numeral (bytes (Nat.toDigits base n)) := by
  intro b hb
  obtain ⟨ch, hch, rfl⟩ := List.mem_map.mp hb
  obtain ⟨k, hk, rfl⟩ := mem_toDigits hbase hch
  exact ⟨k, by omega, rfl⟩

theorem Numeral.zeros {s : List U8} (hs : Numeral s) (k : Nat) :
    Numeral (List.replicate k (byte '0') ++ s) := by
  intro b hb
  rcases List.mem_append.mp hb with hb | hb
  · rw [List.eq_of_mem_replicate hb]
    exact ⟨0, by decide, rfl⟩
  · exact hs b hb

theorem Numeral.skipBlanks {s : List U8} (hs : Numeral s) (k : Nat) :
    skipBlanks (List.replicate k (byte ' ') ++ s) = s := by
  induction k with
  | zero =>
      cases s with
      | nil => rfl
      | cons b s =>
          obtain ⟨hspace, htab⟩ := (hs.plain List.mem_cons_self).1
          show Strtol.skipBlanks (b :: s) = b :: s
          rw [Strtol.skipBlanks, if_neg (not_or.mpr ⟨hspace, htab⟩)]
  | succ k ih =>
      rw [List.replicate_succ, List.cons_append, Strtol.skipBlanks, if_pos (Or.inl rfl)]
      exact ih

theorem Numeral.sign {s : List U8} (hs : Numeral s) : sign s = (false, s) := by
  cases s with
  | nil => rfl
  | cons b s =>
      obtain ⟨hplus, hminus⟩ := (hs.plain List.mem_cons_self).2.1
      rw [Strtol.sign, if_neg hplus, if_neg hminus]

/-- A number that is printed without a prefix is read without one. -/
theorem Numeral.basePrefix {s : List U8} (hs : Numeral s) {base : Int} (hbase : base ≠ 0) :
    basePrefix base s = (base, s) := by
  have hx : s.getD 1 0#8 ≠ byte 'x' := by
    rcases s with _ | ⟨b, _ | ⟨b', s⟩⟩
    · decide
    · show 0#8 ≠ byte 'x'
      decide
    · exact (hs.plain (List.mem_cons_of_mem _ List.mem_cons_self)).2.2
  unfold Strtol.basePrefix
  rw [if_neg (fun h => hx h.2.2), if_neg (fun h => hbase h.1), if_neg hbase]

theorem Numeral.strtol {s : List U8} (hs : Numeral s) {base : Int} (hbase : base ≠ 0) (k : Nat) :
    strtol (List.replicate k (byte ' ') ++ s) base = digits base 0#32 s := by
  unfold Strtol.strtol
  simp only [hs.skipBlanks, hs.sign, hs.basePrefix hbase, Bool.false_eq_true, if_false]

theorem strtol_prefix {base : Int} (hbase : base = 0 ∨ base = 16) (s : List U8) :
    strtol (byte '0' :: byte 'x' :: s) base = digits 16 0#32 s := by
  have hblanks : skipBlanks (byte '0' :: byte 'x' :: s) = byte '0' :: byte 'x' :: s := rfl
  have hsign : sign (byte '0' :: byte 'x' :: s) = (false, byte '0' :: byte 'x' :: s) := rfl
  have hprefix : basePrefix base (byte '0' :: byte 'x' :: s) = (16, s) :=
    if_pos ⟨hbase, rfl, rfl⟩
  unfold strtol
  simp only [hblanks, hsign, hprefix, Bool.false_eq_true, if_false]

theorem Numeral.strtol_minus {s : List U8} (hs : Numeral s) {base : Int} (hbase : base ≠ 0) :
    Strtol.strtol (byte '-' :: s) base =
      (-(digits base 0#32 s).1, (digits base 0#32 s).2) := by
  have hblanks : Strtol.skipBlanks (byte '-' :: s) = byte '-' :: s := rfl
  have hsign : Strtol.sign (byte '-' :: s) = (true, s) := rfl
  unfold Strtol.strtol
  simp only [hblanks, hsign, hs.basePrefix hbase, if_true]

/-! ## What is printed -/

/-- Whatever the width is, there is only padding in front of the digits. -/
theorem printnum_pads {base : Nat} (hbase : 2 ≤ base) (hle : base ≤ 16) (n : Nat)
    (width padc : Int) :
    ∃ k, printnum n base width padc =
      List.replicate k padc ++ (Nat.toDigits base n).map code := by
  induction n using Nat.strongRecOn generalizing width with
  | ind n ih =>
      have hdigit : digit (n % base) = code (Nat.digitChar (n % base)) :=
        digit_eq (Nat.lt_of_lt_of_le (Nat.mod_lt _ (by omega)) hle)
      rw [printnum, hdigit]
      by_cases hmore : base ≤ n
      · obtain ⟨k, hk⟩ := ih _ (Nat.div_lt_self (by omega) hbase) (int (width - 1))
        refine ⟨k, ?_⟩
        rw [dif_pos ⟨hmore, hbase⟩, hk, Nat.toDigits_of_base_le hbase hmore, List.map_append,
          List.append_assoc]
        rfl
      · refine ⟨(int (width - 1)).toNat, ?_⟩
        rw [dif_neg (fun h => hmore h.1), Nat.toDigits_of_lt_base (by omega),
          Nat.mod_eq_of_lt (by omega)]
        rfl

/-- Without a width there is no padding. -/
theorem printnum_plain {base : Nat} (hbase : 2 ≤ base) (hle : base ≤ 16) {n : Nat}
    (hlt : n < 2 ^ 64) (padc : Int) :
    printnum n base (-1) padc = (Nat.toDigits base n).map code := by
  have hlen := length_toDigits_le hbase hlt
  rw [printnum_eq hbase hle (by omega) (by decide)]
  have hzero : ((-1 : Int) - (Nat.toDigits base n).length).toNat = 0 := by omega
  rw [hzero]
  rfl

theorem ofInt_code (cs : List Char) : (cs.map code).map (BitVec.ofInt 8) = bytes cs := by
  rw [List.map_map]
  exact List.map_congr_left (fun ch _ => BitVec.ofInt_natCast 8 ch.toNat)

theorem digits_value {base : Nat} (hbase : 1 < base) (hle : base ≤ 16) (n : Nat) :
    digits base 0#32 (bytes (Nat.toDigits base n)) = (BitVec.ofNat 32 n, []) := by
  have h := digits_toDigits hbase hle n []
  rwa [List.append_nil] at h

/-- What is printed for a number without a sign, with blanks or zeros for padding. -/
theorem strtol_padded {base : Nat} (hbase : 1 < base) (hle : base ≤ 16) (v : U32) (k : Nat)
    {padc : Int} (hpadc : padc = code ' ' ∨ padc = code '0') :
    strtol ((List.replicate k padc ++ (Nat.toDigits base v.toNat).map code).map (BitVec.ofInt 8))
      base = (v, []) := by
  have hdigits := numeral_toDigits hbase hle v.toNat
  have hvalue : digits base 0#32 (bytes (Nat.toDigits base v.toNat)) = (v, []) := by
    rw [digits_value hbase hle, BitVec.ofNat_toNat, BitVec.setWidth_eq]
  have hne : (base : Int) ≠ 0 := by omega
  rw [List.map_append, List.map_replicate, ofInt_code]
  rcases hpadc with rfl | rfl
  · have h := hdigits.strtol hne k
    rw [hvalue] at h
    exact h
  · have h := (hdigits.zeros k).strtol hne 0
    rw [digits_zeros hbase hle, hvalue] at h
    exact h

/-! ## Widths and padding -/

/-- There is no flag `-` and no `l`; there may be any widths, zeros, `.` and `#`. -/
def Pads (bs : List U8) : Prop := byte '-' ∉ bs ∧ byte 'l' ∉ bs

/-- What has been read asks for blanks or zeros and for an `int`, behind `n` arguments. -/
def Reading.Padded (r : Reading) (n : Nat) : Prop :=
  (r.escape.padc = code ' ' ∨ r.escape.padc = code '0') ∧ r.escape.lflag = 0 ∧ r.ap = n

theorem Reading.Padded.give {r : Reading} {n : Nat} (h : Reading.Padded r n) (m : Int)
    (number : Option Int) : Reading.Padded ⟨Reading.give r.escape m, r.ap, number⟩ n := by
  unfold Formats.Reading.give
  split <;> exact h

theorem Reading.Padded.finish {r : Reading} {n : Nat} (h : Reading.Padded r n) :
    Reading.Padded r.finish n := by
  unfold Formats.Reading.finish
  split
  · exact h
  · exact h.give _ _

theorem Reading.Padded.mark {r : Reading} {n : Nat} (h : Reading.Padded r n) (c : Call) {b : U8}
    (hminus : b ≠ byte '-') (hl : b ≠ byte 'l') :
    Reading.Padded (r.mark c b) (n + if b = byte '*' then 1 else 0) := by
  by_cases hstar : b = byte '*'
  · obtain ⟨hpadc, hlflag, hap⟩ := h.give (c.arg r.ap).toInt r.number
    rw [if_pos hstar, hstar]
    exact ⟨hpadc, hlflag, congrArg (· + 1) hap⟩
  · obtain ⟨hpadc, hlflag, hap⟩ := h
    rw [if_neg hstar]
    unfold Formats.Reading.mark
    split
    · next hchar => exact absurd (eq_of_char hchar) hminus
    · exact ⟨Or.inr rfl, hlflag, hap⟩
    · next hchar => exact absurd (eq_of_char hchar) hstar
    · exact ⟨hpadc, hlflag, hap⟩
    · exact ⟨hpadc, hlflag, hap⟩
    · next hchar => exact absurd (eq_of_char hchar) hl
    · exact ⟨hpadc, hlflag, hap⟩

theorem Reading.Padded.read {r : Reading} {n : Nat} (h : Reading.Padded r n) (c : Call) {b : U8}
    (hminus : b ≠ byte '-') (hl : b ≠ byte 'l') :
    Reading.Padded (r.read c b) (n + if b = byte '*' then 1 else 0) := by
  unfold Formats.Reading.read
  split
  · exact h.mark c hminus hl
  · split
    · exact h.finish.mark c hminus hl
    · next hdigit =>
        have hstar : b ≠ byte '*' := by
          rintro rfl
          exact hdigit (Or.inl (by decide))
        rw [if_neg hstar]
        exact h

/-- A `*` takes an argument, in front of the value. -/
theorem reading_padded (c : Call) {body : Body} (hpads : Pads body.chars) :
    Reading.Padded (body.reading c 0).finish (body.chars.count (byte '*')) := by
  have hread : ∀ (bs : List U8) (r : Reading) (n : Nat), Pads bs → Reading.Padded r n →
      Reading.Padded (bs.foldl (Formats.Reading.read c) r) (n + bs.count (byte '*')) := by
    intro bs
    induction bs with
    | nil => exact fun r n _ h => h
    | cons b bs ih =>
        intro r n hpads h
        have hfirst := h.read c (List.ne_of_not_mem_cons hpads.1).symm
          (List.ne_of_not_mem_cons hpads.2).symm
        have hrest := ih _ _ ⟨List.not_mem_of_not_mem_cons hpads.1,
          List.not_mem_of_not_mem_cons hpads.2⟩ hfirst
        rw [List.foldl_cons, List.count_cons, Nat.add_comm (bs.count _), ← Nat.add_assoc]
        simpa only [beq_iff_eq] using hrest
  have h := hread body.chars ⟨.start, 0, none⟩ 0 hpads ⟨Or.inl rfl, rfl, rfl⟩
  rw [Nat.zero_add] at h
  exact h.finish

/-- One escape prints its conversion. -/
theorem escape_prints {c : Call} (body : Body) (letter : U8) (hmark : ¬ Mark letter)
    (hletter : Letter letter) (hfmt : FmtAt c 0 (percent :: (body.chars ++ [letter]) ++ [0#8])) :
    Prints c (conversion c (body.reading c 0).finish letter).1 := by
  have hnonzero : ∀ b, b ∈ percent :: (body.chars ++ [letter]) → b ≠ 0#8 := by
    intro b hb
    rcases List.mem_cons.mp hb with rfl | hb
    · decide
    · rcases List.mem_append.mp hb with hb | hb
      · exact (mark_plain (body.marks b hb)).2
      · rw [List.mem_singleton.mp hb]
        rintro rfl
        exact absurd hletter (by decide)
  have h := pieces_printed hnonzero hfmt
  rw [pieces_escape body hmark, written] at h
  rw [if_pos hletter, written, List.append_nil] at h
  exact h

/-! ## The round trips -/

/-- The conversions of numbers without a sign. -/
theorem conversion_unsigned {c : Call} {r : Reading} (hlflag : r.escape.lflag = 0) {letter : Char}
    {base : Nat} (hbase : (letter, base) ∈ [('u', 10), ('o', 8), ('x', 16)]) :
    (conversion c r (byte letter)).1 =
      printnum (c.arg r.ap).toNat base r.escape.width r.escape.padc := by
  have hnum : ((Printing.mk 0 r.ap [] (.escape r.escape)).getuint c r.escape.lflag).toNat =
      (c.arg r.ap).toNat := by
    rw [hlflag]
    show ((c.arg r.ap).setWidth 64).toNat = (c.arg r.ap).toNat
    exact BitVec.toNat_setWidth_of_le (by decide)
  rw [← hnum]
  simp only [List.mem_cons, Prod.mk.injEq, List.not_mem_nil, or_false] at hbase
  rcases hbase with ⟨rfl, rfl⟩ | ⟨rfl, rfl⟩ | ⟨rfl, rfl⟩
  · rfl
  · rfl
  · rfl

theorem readsBack_padded {c : Call} {v : U32} {body : Body} (hpads : Pads body.chars)
    {letter : Char} {base : Nat} (hbase : (letter, base) ∈ [('u', 10), ('o', 8), ('x', 16)])
    (hprints : PrintsValue c (percent :: (body.chars ++ [byte letter]))
      (body.chars.count (byte '*')) v) : ReadsBack c base v := by
  obtain ⟨hfmt, rfl⟩ := hprints
  obtain ⟨hpadc, hlflag, hap⟩ := reading_padded c hpads
  generalize hr : (body.reading c 0).finish = r at hpadc hlflag hap
  rw [← hap]
  have hsmall : 1 < base ∧ base ≤ 16 ∧ ¬ Mark (byte letter) ∧ Letter (byte letter) := by
    simp only [List.mem_cons, Prod.mk.injEq, List.not_mem_nil, or_false] at hbase
    rcases hbase with ⟨rfl, rfl⟩ | ⟨rfl, rfl⟩ | ⟨rfl, rfl⟩ <;> decide
  obtain ⟨hgt, hle, hmark, hletter⟩ := hsmall
  have hprints := escape_prints body _ hmark hletter hfmt
  rw [hr, conversion_unsigned hlflag hbase] at hprints
  obtain ⟨k, hk⟩ := printnum_pads hgt hle (c.arg r.ap).toNat r.escape.width r.escape.padc
  rw [hk] at hprints
  exact ⟨_, hprints, strtol_padded hgt hle _ k hpadc⟩

/-- A pointer has its prefix. -/
theorem readsBack_pointer {c : Call} {v : U32} (hprints : PrintsValue c (bytes ['%', 'p']) 0 v)
    {base : Int} (hbase : base = 0 ∨ base = 16) : ReadsBack c base v := by
  obtain ⟨hfmt, rfl⟩ := hprints
  have hprints := escape_prints (c := c) .empty (byte 'p') (by decide) (by decide) hfmt
  have hconversion : (conversion c (Body.empty.reading c 0).finish (byte 'p')).1 =
      [code '0', code 'x'] ++ (Nat.toDigits 16 (c.arg 0).toNat).map code := by
    have hlt := (c.arg 0).isLt
    rw [← printnum_plain (by decide) (by decide) (by omega) (code ' '),
      ← setWidth_word (c.arg 0), BitVec.setWidth_eq]
    rfl
  rw [hconversion] at hprints
  refine ⟨_, hprints, ?_⟩
  have hvalue := digits_value (by decide : 1 < 16) (by decide) (c.arg 0).toNat
  rw [BitVec.ofNat_toNat, BitVec.setWidth_eq] at hvalue
  rw [List.map_append, ofInt_code, ← hvalue]
  exact strtol_prefix hbase _

/-- Also for the least value, for which `val` is negative before its sign is changed. -/
theorem readsBack_decimal {c : Call} {v : U32} (hprints : PrintsValue c (bytes ['%', 'd']) 0 v) :
    ReadsBack c 10 v := by
  obtain ⟨hfmt, rfl⟩ := hprints
  have hprints := escape_prints (c := c) .empty (byte 'd') (by decide) (by decide) hfmt
  have hsigned := signed_eq (e := .start) (Printing.mk 0 1 [] (.escape .start))
    ((c.arg 0).signExtend 64)
  have htoInt : ((c.arg 0).signExtend 64).toInt = (c.arg 0).toInt :=
    BitVec.toInt_signExtend_of_le (by decide)
  have hge := BitVec.le_toInt (c.arg 0)
  have hlt := BitVec.toInt_lt (x := c.arg 0)
  have hplain : printnum (c.arg 0).toInt.natAbs 10 Escape.start.width Escape.start.padc =
      (Nat.toDigits 10 (c.arg 0).toInt.natAbs).map code :=
    printnum_plain (by decide) (by decide) (by omega) (code ' ')
  rw [htoInt, hplain] at hsigned
  have hconversion : (conversion c (Body.empty.reading c 0).finish (byte 'd')).1 =
      (if (c.arg 0).toInt < 0 then [code '-'] else []) ++
        (Nat.toDigits 10 (c.arg 0).toInt.natAbs).map code :=
    congrArg Printing.out hsigned
  rw [hconversion] at hprints
  refine ⟨_, hprints, ?_⟩
  have hnumeral := numeral_toDigits (by decide : 1 < 10) (by decide) (c.arg 0).toInt.natAbs
  have hvalue := digits_value (by decide : 1 < 10) (by decide) (c.arg 0).toInt.natAbs
  rw [List.map_append, ofInt_code]
  split
  · next hneg =>
      have hread : strtol (byte '-' :: bytes (Nat.toDigits 10 (c.arg 0).toInt.natAbs)) 10 =
          (-BitVec.ofNat 32 (c.arg 0).toInt.natAbs, []) := by
        rw [hnumeral.strtol_minus (by decide)]
        exact congrArg (fun p : U32 × List U8 => (-p.1, p.2)) hvalue
      have habs : (((c.arg 0).toInt.natAbs : Nat) : Int) = -(c.arg 0).toInt :=
        Int.ofNat_natAbs_of_nonpos (by omega)
      rw [← BitVec.ofInt_natCast, habs, BitVec.ofInt_neg, BitVec.neg_neg,
        BitVec.ofInt_toInt] at hread
      exact hread
  · next hpos =>
      have hread : strtol (bytes (Nat.toDigits 10 (c.arg 0).toInt.natAbs)) 10 =
          (BitVec.ofNat 32 (c.arg 0).toInt.natAbs, []) :=
        (hnumeral.strtol (by decide : (10 : Int) ≠ 0) 0).trans hvalue
      have habs : (((c.arg 0).toInt.natAbs : Nat) : Int) = (c.arg 0).toInt :=
        Int.natAbs_of_nonneg (by omega)
      rw [← BitVec.ofInt_natCast, habs, BitVec.ofInt_toInt] at hread
      exact hread

/-- A value that is printed is read back: with `%d` in base 10, with `%p` in base 16 and from its
prefix, and with `%u`, `%o` and `%x` in their bases, whatever the width and with blanks or zeros
for padding. -/
theorem strtol_reads_back (c : Call) (v : U32) :
    (PrintsValue c (bytes ['%', 'd']) 0 v → ReadsBack c 10 v) ∧
    (PrintsValue c (bytes ['%', 'p']) 0 v → ReadsBack c 0 v ∧ ReadsBack c 16 v) ∧
    (∀ (body : Body), Pads body.chars →
      ∀ letter base, (letter, base) ∈ [('u', 10), ('o', 8), ('x', 16)] →
        PrintsValue c (percent :: (body.chars ++ [byte letter])) (body.chars.count (byte '*')) v →
          ReadsBack c (base : Nat) v) := by
  refine ⟨readsBack_decimal, fun hprints => ⟨?_, ?_⟩, ?_⟩
  · exact readsBack_pointer hprints (Or.inl rfl)
  · exact readsBack_pointer hprints (Or.inr rfl)
  · intro body hpads letter base hbase hprints
    exact readsBack_padded hpads hbase hprints

/-- `cprintf("%d", INT_MIN)`. -/
def leastCall : Call where
  fmt i := (bytes ['%', 'd'] ++ [0#8]).getD i 0#8
  arg _ := 0x80000000#32
  str _ := []

/-- `cprintf("%p", 0xf0100000)`. -/
def pointerCall : Call where
  fmt i := (bytes ['%', 'p'] ++ [0#8]).getD i 0#8
  arg _ := 0xf0100000#32
  str _ := []

/-- `cprintf("%0*x", 12, 0xdeadbeef)`. -/
def widthCall : Call where
  fmt i := (bytes ['%', '0', '*', 'x'] ++ [0#8]).getD i 0#8
  arg i := [12#32, 0xdeadbeef#32].getD i 0#32
  str _ := []

def zeroStar : Body := ⟨bytes ['0', '*'], by decide⟩

theorem strtol_reads_back_least :
    ReadsBack leastCall 10 0x80000000#32 ∧
      (ReadsBack pointerCall 0 0xf0100000#32 ∧ ReadsBack pointerCall 16 0xf0100000#32) ∧
      ReadsBack widthCall 16 0xdeadbeef#32 := by
  refine ⟨?_, ?_, ?_⟩
  · exact (strtol_reads_back leastCall 0x80000000#32).1 ⟨⟨rfl, rfl, rfl, trivial⟩, rfl⟩
  · exact (strtol_reads_back pointerCall 0xf0100000#32).2.1 ⟨⟨rfl, rfl, rfl, trivial⟩, rfl⟩
  · exact (strtol_reads_back widthCall 0xdeadbeef#32).2.2 zeroStar (by unfold Pads; decide) 'x' 16
      (by decide) ⟨⟨rfl, rfl, rfl, rfl, rfl, trivial⟩, rfl⟩

end Strtol

end Jos

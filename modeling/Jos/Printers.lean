import Jos.Snprintf

/-!
# The users of `vprintfmt`: `kern/printf.c`, `lib/printf.c`, `lib/fprintf.c`

The kernel gives every character to the console.  An environment collects characters in a buffer:
`vcprintf` prints it with `sys_cputs`, which is the kernel's `cprintf("%.*s", len, s)`, and
`vfprintf` writes it to a file.  `vsnprintf` leaves a string in memory.

They all print the same.  What they return is not the same: the kernel's `putch` increments the
pointer to its count and not the count, and `vfprintf` returns `error`, which is 1, when nothing
has been written.
-/

namespace Jos

namespace Printers

open Printfmt Formats Snprintf

/-- What a character buffer holds. -/
def held (buf : Nat → U8) (idx : Nat) : List U8 := (List.range idx).map buf

/-! ## The kernel -/

namespace Kern

structure Console where
  /-- the characters that `cputchar` has printed -/
  printed : List U8
  /-- the count of `vcprintf` -/
  cnt : Int

/-- `putch`.  `*cnt++` increments the pointer, which is its own. -/
def putch (s : Console) (ch : Int) : Console :=
  { s with printed := s.printed ++ [BitVec.ofInt 8 ch] }

/-- `vcprintf`: what it prints and returns. -/
def vcprintf (c : Call) (fuel : Nat) : Option (List U8 × Int) :=
  (vprintfmt c fuel).map (fun out =>
    let s := out.foldl putch ⟨[], 0⟩
    (s.printed, s.cnt))

end Kern

/-! ## Environments -/

namespace User

/-- Where `b.buf` of `vcprintf` is on the stack, and what is behind it. -/
structure Stack where
  addr : U32
  behind : List U8
  notNull : addr ≠ 0#32

def cputsFormat : List U8 := bytes ['%', '.', '*', 's']

/-- `cprintf("%.*s", len, s)`. -/
def cputsCall (stack : Stack) (buf : Nat → U8) (len : Nat) : Call where
  fmt i := (cputsFormat ++ [0#8]).getD i 0#8
  arg i := [BitVec.ofNat 32 len, stack.addr].getD i 0#32
  str _ := (held buf 256 ++ stack.behind).takeWhile (· ≠ 0#8)

/-- `sys_cputs`. -/
def sysCputs (stack : Stack) (buf : Nat → U8) (len fuel : Nat) : Option (List U8) :=
  (Kern.vcprintf (cputsCall stack buf len) fuel).map Prod.fst

/-- `struct printbuf`, and what has been printed. -/
structure Printbuf where
  idx : Nat
  cnt : Int
  buf : Nat → U8
  printed : List U8

/-- `putch`. -/
def putch (stack : Stack) (fuel : Nat) (b : Printbuf) (ch : Int) : Option Printbuf :=
  if b.idx < 256 then
    let buf := Function.update b.buf b.idx (BitVec.ofInt 8 ch)
    let idx := b.idx + 1
    if idx = 256 - 1 then
      (sysCputs stack buf idx fuel).map (fun cs => ⟨0, int (b.cnt + 1), buf, b.printed ++ cs⟩)
    else some ⟨idx, int (b.cnt + 1), buf, b.printed⟩
  else none

/-- `vcprintf`.  The buffer is not initialized. -/
def vcprintf (stack : Stack) (buf : Nat → U8) (c : Call) (fuel : Nat) : Option (List U8 × Int) :=
  (vprintfmt c fuel).bind (fun out =>
    (out.foldlM (putch stack fuel) ⟨0, 0, buf, []⟩).bind (fun b =>
      (sysCputs stack b.buf b.idx fuel).map (fun cs => (b.printed ++ cs, b.cnt))))

end User

/-! ## Files -/

namespace File

/-- `struct printbuf`, and what is in the file. -/
structure Printbuf where
  idx : Nat
  result : Int
  error : Int
  buf : Nat → U8
  written : List U8

/-- `write`, for what has been written already and for the data. -/
abbrev Write : Type := List U8 → List U8 → Int

/-- `writebuf`. -/
def writebuf (write : Write) (b : Printbuf) : Printbuf :=
  if 0 < b.error then
    let result := write b.written (held b.buf b.idx)
    let b := { b with written := b.written ++ (held b.buf b.idx).take result.toNat }
    let b := if 0 < result then { b with result := int (b.result + result) } else b
    if result ≠ b.idx then { b with error := if result < 0 then result else 0 } else b
  else b

/-- `putch`. -/
def putch (write : Write) (b : Printbuf) (ch : Int) : Option Printbuf :=
  if b.idx < 256 then
    let b := { b with buf := Function.update b.buf b.idx (BitVec.ofInt 8 ch), idx := b.idx + 1 }
    if b.idx = 256 then some { writebuf write b with idx := 0 } else some b
  else none

/-- `vfprintf`. -/
def vfprintf (write : Write) (buf : Nat → U8) (c : Call) (fuel : Nat) : Option (List U8 × Int) :=
  (vprintfmt c fuel).bind (fun out =>
    (out.foldlM (putch write) ⟨0, 0, 1, buf, []⟩).map (fun b =>
      let b := if 0 < b.idx then writebuf write b else b
      (b.written, if b.result ≠ 0 then b.result else b.error)))

end File

/-! ## Memory -/

/-- `vsnprintf`, with the string that it leaves. -/
def vsnprintfString (buf : U32) (n : Nat) (mem : U32 → U8) (c : Call) (fuel : Nat) :
    Option (List U8 × Int) :=
  (vsnprintf buf n c fuel mem).map (fun p => ((bytesAt p.1 buf n).takeWhile (· ≠ 0#8), p.2))

/-! ## What they print -/

/-- It prints this and returns that. -/
def Emits (run : Nat → Option (List U8 × Int)) (bs : List U8) (r : Int) : Prop :=
  ∃ k, ∀ fuel, k ≤ fuel → run fuel = some (bs, r)

theorem Emits.unique {run : Nat → Option (List U8 × Int)} {bs bs' : List U8} {r r' : Int}
    (h : Emits run bs r) (h' : Emits run bs' r') : r = r' := by
  obtain ⟨k, hk⟩ := h
  obtain ⟨k', hk'⟩ := h'
  have heq := (hk (max k k') (Nat.le_max_left _ _)).symm.trans (hk' _ (Nat.le_max_right _ _))
  exact (Prod.mk.inj (Option.some.inj heq)).2

/-- The characters of an output. -/
def chars (out : List Int) : List U8 := out.map (BitVec.ofInt 8)

theorem held_update {buf : Nat → U8} {idx : Nat} (b : U8) :
    held (Function.update buf idx b) (idx + 1) = held buf idx ++ [b] := by
  unfold held
  rw [List.range_succ, List.map_append, List.map_singleton, Function.update_self]
  congr 1
  refine List.map_congr_left (fun i hi => Function.update_of_ne ?_ _ _)
  have hlt := List.mem_range.mp hi
  omega

theorem held_length (buf : Nat → U8) (idx : Nat) : (held buf idx).length = idx := by
  rw [held, List.length_map, List.length_range]

section Kernel

theorem kern_putch_all (out : List Int) (s : Kern.Console) :
    out.foldl Kern.putch s = { s with printed := s.printed ++ chars out } := by
  induction out generalizing s with
  | nil =>
      show s = { s with printed := s.printed ++ [] }
      rw [List.append_nil]
  | cons ch out ih =>
      rw [List.foldl_cons, ih]
      show Kern.Console.mk (s.printed ++ [BitVec.ofInt 8 ch] ++ chars out) s.cnt = _
      rw [List.append_assoc]
      rfl

/-- The kernel counts nothing. -/
theorem kern_emits {c : Call} {out : List Int} (hprints : Prints c out) :
    Emits (Kern.vcprintf c) (chars out) 0 := by
  obtain ⟨k, hk⟩ := hprints
  refine ⟨k, fun fuel hfuel => ?_⟩
  unfold Kern.vcprintf
  rw [hk fuel hfuel, Option.map_some, kern_putch_all]
  rfl

end Kernel

section UserBuffer

open User

variable (stack : Stack) {buf : Nat → U8} {len : Nat}

/-- The string that the kernel sees starts with what is in the buffer. -/
theorem held_string (hlen : len ≤ 255) (hnonzero : ∀ b, b ∈ held buf len → b ≠ 0#8) :
    ((held buf 256 ++ stack.behind).takeWhile (· ≠ 0#8)).take len = held buf len := by
  have hsplit : held buf 256 = held buf len ++ (held buf 256).drop len := by
    have htake : (held buf 256).take len = held buf len := by
      rw [held, ← List.map_take, List.take_range, Nat.min_eq_left (by omega), held]
    rw [← htake, List.take_append_drop]
  rw [hsplit, List.append_assoc, List.takeWhile_append_of_pos (by simpa using hnonzero)]
  exact List.take_left' (held_length buf len)

/-- With a precision and without a width. -/
theorem string_precise {s : Printing} {e : Escape} {cs : List U8} {n : Nat} (hwidth : e.width = 0)
    (hprecision : e.precision = n) (halt : e.altflag = false) :
    (s.string e cs).out = s.out ++ (cs.take n).map BitVec.toInt := by
  have hge : ¬ (n : Int) < 0 := by omega
  unfold Printing.string Printing.put Printing.next repeatPutch
  simp [hwidth, hprecision, halt, if_neg hge]

theorem cputs_nonzero : ∀ b, b ∈ cputsFormat → b ≠ 0#8 := by decide

/-- `"%.*s"` prints as many characters as it is told. -/
theorem cputs_output (hlen : len ≤ 255) (hnonzero : ∀ b, b ∈ held buf len → b ≠ 0#8) :
    output (cputsCall stack buf len) cputsFormat = (held buf len).map BitVec.toInt := by
  have hword : (BitVec.ofNat 32 len).toInt = len := by
    rw [BitVec.toInt_eq_toNat_of_lt (by rw [BitVec.toNat_ofNat]; omega), BitVec.toNat_ofNat]
    omega
  have hout : output (cputsCall stack buf len) cputsFormat =
      ((Printing.mk 0 2 []
          (.escape { Escape.start with
            width := 0, precision := (BitVec.ofNat 32 len).toInt })).string
        { Escape.start with width := 0, precision := (BitVec.ofNat 32 len).toInt }
        (if stack.addr = 0#32 then "(null)".toList.map (fun c => BitVec.ofNat 8 c.toNat)
          else (held buf 256 ++ stack.behind).takeWhile (· ≠ 0#8))).out ++ [] := rfl
  rw [hout, hword, if_neg stack.notNull, List.append_nil, string_precise rfl rfl rfl,
    held_string stack hlen hnonzero]
  rfl

theorem sysCputs_held (hlen : len ≤ 255) (hnonzero : ∀ b, b ∈ held buf len → b ≠ 0#8) :
    ∃ k, ∀ fuel, k ≤ fuel → sysCputs stack buf len fuel = some (held buf len) := by
  have hfmt : FmtAt (cputsCall stack buf len) 0 (cputsFormat ++ [0#8]) :=
    ⟨rfl, rfl, rfl, rfl, rfl, trivial⟩
  have hprints : Prints (cputsCall stack buf len) (output (cputsCall stack buf len) cputsFormat) :=
    pieces_printed cputs_nonzero hfmt
  rw [cputs_output stack hlen hnonzero] at hprints
  have hchars : chars ((held buf len).map BitVec.toInt) = held buf len := by
    rw [chars, List.map_map]
    exact (List.map_congr_left (fun b _ => BitVec.ofInt_toInt)).trans (List.map_id _)
  obtain ⟨k, hk⟩ := kern_emits hprints
  refine ⟨k, fun fuel hfuel => ?_⟩
  unfold sysCputs
  rw [hk fuel hfuel, hchars]
  rfl

/-- What `vcprintf` has done when these characters have been printed. -/
structure Collected (done : List Int) (b : User.Printbuf) : Prop where
  all : b.printed ++ held b.buf b.idx = chars done
  room : b.idx < 255
  cnt : b.cnt = int done.length

theorem Collected.nonzero {done : List Int} {b : User.Printbuf} (h : Collected done b)
    (hdone : ∀ x, x ∈ chars done → x ≠ 0#8) : ∀ x, x ∈ held b.buf b.idx → x ≠ 0#8 := by
  intro x hx
  apply hdone x
  rw [← h.all]
  exact List.mem_append_right _ hx

theorem chars_append (out : List Int) (ch : Int) :
    chars (out ++ [ch]) = chars out ++ [BitVec.ofInt 8 ch] := List.map_append

theorem Collected.put {done : List Int} {b : User.Printbuf} (h : Collected done b) (ch : Int)
    (hdone : ∀ x, x ∈ chars (done ++ [ch]) → x ≠ 0#8) :
    ∃ b', Collected (done ++ [ch]) b' ∧
      ∃ k, ∀ fuel, k ≤ fuel → User.putch stack fuel b ch = some b' := by
  obtain ⟨idx, cnt, buf, printed⟩ := b
  obtain ⟨hall, hroom, hcnt⟩ := h
  dsimp only at hall hroom hcnt
  have hcnt' : int (cnt + 1) = int (done ++ [ch]).length := by
    rw [hcnt, int_succ, List.length_append, List.length_singleton]
  have hall' : printed ++ held (Function.update buf idx (BitVec.ofInt 8 ch)) (idx + 1) =
      chars (done ++ [ch]) := by
    rw [held_update, ← List.append_assoc, hall, chars_append]
  unfold User.putch
  simp only [if_pos (show idx < 256 by omega)]
  by_cases hfull : idx + 1 = 256 - 1
  · simp only [if_pos hfull]
    have hheld : ∀ x, x ∈ held (Function.update buf idx (BitVec.ofInt 8 ch)) (idx + 1) → x ≠ 0#8 :=
      fun x hx => hdone x (hall' ▸ List.mem_append_right _ hx)
    obtain ⟨k, hk⟩ := sysCputs_held stack (by omega) hheld
    refine ⟨⟨0, int (cnt + 1), Function.update buf idx (BitVec.ofInt 8 ch),
      printed ++ held (Function.update buf idx (BitVec.ofInt 8 ch)) (idx + 1)⟩, ?_, k, ?_⟩
    · exact ⟨(List.append_nil _).trans hall', show 0 < 255 by decide, hcnt'⟩
    · intro fuel hfuel
      rw [hk fuel hfuel]
      rfl
  · simp only [if_neg hfull]
    exact ⟨_, ⟨hall', by show idx + 1 < 255; omega, hcnt'⟩, 0, fun _ _ => rfl⟩

theorem Collected.putAll (cs : List Int) {done : List Int} {b : User.Printbuf}
    (h : Collected done b) (hdone : ∀ x, x ∈ chars (done ++ cs) → x ≠ 0#8) :
    ∃ b', Collected (done ++ cs) b' ∧
      ∃ k, ∀ fuel, k ≤ fuel → cs.foldlM (User.putch stack fuel) b = some b' := by
  induction cs generalizing done b with
  | nil =>
      rw [List.append_nil]
      exact ⟨b, h, 0, fun _ _ => rfl⟩
  | cons ch cs ih =>
      have hsplit : done ++ ch :: cs = done ++ [ch] ++ cs := by simp
      rw [hsplit] at hdone ⊢
      obtain ⟨b₁, h₁, k₁, hk₁⟩ := h.put stack ch (fun x hx => hdone x (by
        rw [chars, List.map_append]
        exact List.mem_append_left _ hx))
      obtain ⟨b', h', k', hk'⟩ := ih h₁ hdone
      refine ⟨b', h', max k₁ k', fun fuel hfuel => ?_⟩
      rw [List.foldlM_cons, hk₁ fuel (by omega)]
      exact hk' fuel (by omega)

/-- An environment prints the whole output and counts it. -/
theorem user_emits {c : Call} {out : List Int} (hprints : Prints c out)
    (hnonzero : ∀ x, x ∈ chars out → x ≠ 0#8) (buf : Nat → U8) :
    Emits (User.vcprintf stack buf c) (chars out) (int out.length) := by
  obtain ⟨k, hk⟩ := hprints
  have hstart : Collected [] ⟨0, 0, buf, []⟩ := ⟨rfl, show 0 < 255 by decide, rfl⟩
  obtain ⟨b, hb, k₁, hk₁⟩ := hstart.putAll stack out hnonzero
  rw [List.nil_append] at hb
  obtain ⟨k₂, hk₂⟩ := sysCputs_held stack (Nat.le_of_lt hb.room) (hb.nonzero hnonzero)
  refine ⟨max k (max k₁ k₂), fun fuel hfuel => ?_⟩
  unfold User.vcprintf
  rw [hk fuel (by omega), Option.bind_some, hk₁ fuel (by omega), Option.bind_some,
    hk₂ fuel (by omega), Option.map_some, hb.all, hb.cnt]

end UserBuffer

section FileBuffer

open File

variable {write : Write}

/-- Every write is accepted in full. -/
def WritesAll (write : Write) : Prop := ∀ written data, write written data = data.length

/-- What `vfprintf` has done when these characters have been printed. -/
structure Written (done : List Int) (b : File.Printbuf) : Prop where
  all : b.written ++ held b.buf b.idx = chars done
  room : b.idx < 256
  result : b.result = int b.written.length
  error : b.error = 1

/-- The buffer gets into the file. -/
theorem writebuf_all (hwrite : WritesAll write) {b : File.Printbuf} (herror : b.error = 1)
    (hpos : 0 < b.idx) (hresult : b.result = int b.written.length) :
    writebuf write b = { b with
      written := b.written ++ held b.buf b.idx
      result := int (b.written ++ held b.buf b.idx).length } := by
  obtain ⟨idx, result, error, buf, written⟩ := b
  dsimp only at herror hpos hresult
  have hlen : (held buf idx).length = idx := held_length buf idx
  have hsum : int (int written.length + (idx : Int)) = int (written ++ held buf idx).length := by
    rw [List.length_append, hlen]
    unfold int
    rw [Int.bmod_add_bmod, Nat.cast_add]
  have hcall : write written (held buf idx) = idx := by rw [hwrite, hlen]
  have htake : (held buf idx).take (idx : Int).toNat = held buf idx :=
    List.take_of_length_le (by omega)
  unfold writebuf
  dsimp only
  rw [hcall, htake, herror, hresult, hsum]
  have hpos' : (0 : Int) < idx := by omega
  rw [if_pos (by decide)]
  simp only [if_pos hpos']
  rw [if_neg (fun h => h rfl)]

theorem Written.put (hwrite : WritesAll write) {done : List Int} {b : File.Printbuf}
    (h : Written done b) (ch : Int) :
    ∃ b', File.putch write b ch = some b' ∧ Written (done ++ [ch]) b' := by
  obtain ⟨idx, result, error, buf, written⟩ := b
  obtain ⟨hall, hroom, hresult, herror⟩ := h
  dsimp only at hall hroom hresult herror
  have hall' : written ++ held (Function.update buf idx (BitVec.ofInt 8 ch)) (idx + 1) =
      chars (done ++ [ch]) := by
    rw [held_update, ← List.append_assoc, hall, chars_append]
  unfold File.putch
  simp only [if_pos hroom]
  by_cases hfull : idx + 1 = 256
  · simp only [if_pos hfull]
    rw [writebuf_all hwrite herror (Nat.succ_pos idx) hresult]
    dsimp only
    exact ⟨_, rfl, (List.append_nil _).trans hall', show 0 < 256 by decide, by dsimp only, herror⟩
  · simp only [if_neg hfull]
    exact ⟨_, rfl, hall', by show idx + 1 < 256; omega, hresult, herror⟩

theorem Written.putAll (hwrite : WritesAll write) (cs : List Int) {done : List Int}
    {b : File.Printbuf} (h : Written done b) :
    ∃ b', cs.foldlM (File.putch write) b = some b' ∧ Written (done ++ cs) b' := by
  induction cs generalizing done b with
  | nil =>
      rw [List.append_nil]
      exact ⟨b, rfl, h⟩
  | cons ch cs ih =>
      obtain ⟨b₁, hput, h₁⟩ := h.put hwrite ch
      obtain ⟨b', hrest, h'⟩ := ih h₁
      rw [List.append_assoc] at h'
      refine ⟨b', ?_, h'⟩
      rw [List.foldlM_cons, hput]
      exact hrest

/-- What `vfprintf` returns. -/
def fileResult (out : List Int) : Int := if int out.length ≠ 0 then int out.length else 1

/-- A file gets the whole output. -/
theorem file_emits (hwrite : WritesAll write) {c : Call} {out : List Int} (hprints : Prints c out)
    (buf : Nat → U8) : Emits (File.vfprintf write buf c) (chars out) (fileResult out) := by
  obtain ⟨k, hk⟩ := hprints
  have hstart : Written [] ⟨0, 0, 1, buf, []⟩ :=
    ⟨rfl, show 0 < 256 by decide, show 0 = int (0 : Nat) by decide, rfl⟩
  obtain ⟨b, hrun, hb⟩ := hstart.putAll hwrite out
  rw [List.nil_append] at hb
  obtain ⟨hall, -, hresult, herror⟩ := hb
  have hlen : (chars out).length = out.length := List.length_map _
  refine ⟨k, fun fuel hfuel => ?_⟩
  unfold File.vfprintf fileResult
  rw [hk fuel hfuel, Option.bind_some, hrun, Option.map_some]
  dsimp only
  by_cases hpos : 0 < b.idx
  · rw [if_pos hpos, writebuf_all hwrite herror hpos hresult, hall, hlen, herror]
  · have hempty : held b.buf b.idx = [] := by
      rw [Nat.eq_zero_of_not_pos hpos]
      rfl
    rw [hempty, List.append_nil] at hall
    rw [if_neg hpos, hresult, herror, hall, hlen]

end FileBuffer

/-- The string of a memory ends where its `NUL` is. -/
theorem stored_string (mem : U32 → U8) (buf : U32) {bs : List U8} (hnonzero : ∀ x, x ∈ bs → x ≠ 0#8)
    {n : Nat} (hlt : bs.length < n) (hn : n < 2 ^ 31) :
    (bytesAt (stored mem buf (bs ++ [0#8])) buf n).takeWhile (· ≠ 0#8) = bs := by
  have hlen : (bs ++ [0#8]).length = bs.length + 1 := by
    rw [List.length_append, List.length_singleton]
  have hfront : (bytesAt (stored mem buf (bs ++ [0#8])) buf n).take (bs.length + 1) =
      bs ++ [0#8] := by
    have hall : bytesAt (stored mem buf (bs ++ [0#8])) buf (bs.length + 1) = _ :=
      stored_bytesAt (Nat.le_of_eq hlen.symm) (by omega)
    rw [List.take_of_length_le (Nat.le_of_eq hlen)] at hall
    rw [bytesAt, ← List.map_take, List.take_range, Nat.min_eq_left (by omega)]
    exact hall
  rw [← List.take_append_drop (bs.length + 1) (bytesAt _ _ _), hfront, List.append_assoc,
    List.takeWhile_append_of_pos (by simpa using hnonzero)]
  simp

/-- A large enough buffer gets the whole output. -/
theorem string_emits {c : Call} {out : List Int} (hprints : Prints c out)
    (hnonzero : ∀ x, x ∈ chars out → x ≠ 0#8) {buf : U32} {n : Nat} (hbuffer : Buffer buf n)
    (hlarge : out.length < n) (mem : U32 → U8) :
    Emits (vsnprintfString buf n mem c) (chars out) (int out.length) := by
  obtain ⟨k, hk⟩ := snprints_out hprints hbuffer mem
  have hshown : shown n out = chars out := by
    rw [shown, List.take_of_length_le (by omega)]
    rfl
  have hlen : (chars out).length = out.length := List.length_map _
  have hstring := stored_string mem buf hnonzero (by omega) hbuffer.isInt
  refine ⟨k, fun fuel hfuel => ?_⟩
  unfold vsnprintfString
  rw [hk fuel hfuel, Option.map_some, hshown, hstring]

/-! ## What they return -/

/-- What the four functions run on: the stack, what is in the buffers, a file, and a buffer for
`vsnprintf`. -/
structure Sinks where
  stack : User.Stack
  userBuf : Nat → U8
  write : File.Write
  fileBuf : Nat → U8
  buf : U32
  n : Nat
  mem : U32 → U8
  writesAll : WritesAll write
  buffer : Buffer buf n

/-- The kernel's `vcprintf`, that of environments, `vfprintf` and `vsnprintf`. -/
def Sinks.runs (sinks : Sinks) (c : Call) : List (Nat → Option (List U8 × Int)) :=
  [Kern.vcprintf c, User.vcprintf sinks.stack sinks.userBuf c,
    File.vfprintf sinks.write sinks.fileBuf c, vsnprintfString sinks.buf sinks.n sinks.mem c]

/-- All of them print this. -/
def EmitAlike (runs : List (Nat → Option (List U8 × Int))) (bs : List U8) : Prop :=
  ∀ run, run ∈ runs → ∃ r, Emits run bs r

/-- All of them print this and return its length. -/
def Agree (runs : List (Nat → Option (List U8 × Int))) (bs : List U8) : Prop :=
  ∀ run, run ∈ runs → Emits run bs bs.length

theorem runs_emitAlike (sinks : Sinks) {c : Call} {out : List Int} (hprints : Prints c out)
    (hnonzero : ∀ x, x ∈ chars out → x ≠ 0#8) (hlarge : out.length < sinks.n) :
    EmitAlike (sinks.runs c) (chars out) := by
  intro run hrun
  simp only [Sinks.runs, List.mem_cons, List.not_mem_nil, or_false] at hrun
  rcases hrun with rfl | rfl | rfl | rfl
  · exact ⟨_, kern_emits hprints⟩
  · exact ⟨_, user_emits sinks.stack hprints hnonzero sinks.userBuf⟩
  · exact ⟨_, file_emits sinks.writesAll hprints sinks.fileBuf⟩
  · exact ⟨_, string_emits hprints hnonzero sinks.buffer hlarge sinks.mem⟩

/-- The kernel returns 0, and `vfprintf` does not. -/
theorem runs_disagree (sinks : Sinks) {c : Call} {out : List Int} (hprints : Prints c out) :
    ¬ Agree (sinks.runs c) (chars out) := by
  intro hagree
  have hkern := (kern_emits hprints).unique (hagree _ List.mem_cons_self)
  have hfile := (file_emits sinks.writesAll hprints sinks.fileBuf).unique
    (hagree _ (List.mem_cons_of_mem _ (List.mem_cons_of_mem _ List.mem_cons_self)))
  have hzero : fileResult out = 0 := hfile.trans hkern.symm
  unfold fileResult at hzero
  split at hzero
  · next hne => exact hne hzero
  · exact absurd hzero (by decide)

/-- The four functions print every output alike, and never agree on its length.  The kernel's
`vcprintf` returns the length of an empty output only, `vfprintf` that of the others, and the other
two that of every output. -/
theorem printers_agree_never (sinks : Sinks) (c : Call) (out : List Int) (hprints : Prints c out)
    (hnonzero : ∀ x, x ∈ chars out → x ≠ 0#8) (hlarge : out.length < sinks.n) :
    ¬ Agree (sinks.runs c) (chars out) ∧ EmitAlike (sinks.runs c) (chars out) ∧
      (Emits (Kern.vcprintf c) (chars out) out.length ↔ out = []) ∧
      (Emits (File.vfprintf sinks.write sinks.fileBuf c) (chars out) out.length ↔ out ≠ []) ∧
      Emits (User.vcprintf sinks.stack sinks.userBuf c) (chars out) out.length ∧
      Emits (vsnprintfString sinks.buf sinks.n sinks.mem c) (chars out) out.length := by
  have hlen : int out.length = out.length := by
    have hint := sinks.buffer.isInt
    exact int_natCast (by omega)
  have hkern := kern_emits hprints
  have hfile := file_emits sinks.writesAll hprints sinks.fileBuf
  have huser := user_emits sinks.stack hprints hnonzero sinks.userBuf
  have hstring := string_emits hprints hnonzero sinks.buffer hlarge sinks.mem
  rw [hlen] at huser hstring
  refine ⟨runs_disagree sinks hprints, runs_emitAlike sinks hprints hnonzero hlarge, ?_, ?_, huser,
    hstring⟩
  · constructor
    · intro h
      have hzero := hkern.unique h
      exact List.length_eq_zero_iff.mp (by omega)
    · rintro rfl
      exact hkern
  · unfold fileResult at hfile
    rw [hlen] at hfile
    constructor
    · rintro h rfl
      exact absurd (hfile.unique h) (by decide)
    · intro hne
      have hpos : (out.length : Int) ≠ 0 := by
        intro hzero
        exact hne (List.length_eq_zero_iff.mp (by omega))
      rwa [if_pos hpos] at hfile

/-- A file that accepts everything, and a buffer of 16 bytes. -/
def someSinks : Sinks where
  stack := ⟨0xeebfd000#32, [], by decide⟩
  userBuf _ := 0#8
  write _ data := data.length
  fileBuf _ := 0#8
  buf := 0x802000#32
  n := 16
  mem _ := 0#8
  writesAll _ _ := rfl
  buffer := ⟨by decide, by decide, by decide, by decide⟩

/-- `"ok"`. -/
def okCall : Call where
  fmt i := (bytes ['o', 'k'] ++ [0#8]).getD i 0#8
  arg _ := 0#32
  str _ := []

theorem ok_prints : Prints okCall (['o', 'k'].map code) := by
  have hnonzero : ∀ b, b ∈ bytes ['o', 'k'] → b ≠ 0#8 := by decide
  exact pieces_printed hnonzero ⟨rfl, rfl, rfl, trivial⟩

theorem ok_nonzero : ∀ x, x ∈ chars (['o', 'k'].map code) → x ≠ 0#8 := by decide

theorem printers_agree_never_ok : ¬ Agree (someSinks.runs okCall) (chars (['o', 'k'].map code)) :=
  (printers_agree_never someSinks okCall _ ok_prints ok_nonzero (by decide)).1

/-- The kernel's `cprintf("ok")` returns 0. -/
theorem not_printers_agree : ¬ ∀ (sinks : Sinks) (c : Call) (out : List Int), Prints c out →
    (∀ x, x ∈ chars out → x ≠ 0#8) → out.length < sinks.n →
      Agree (sinks.runs c) (chars out) := by
  intro h
  have hagree := h someSinks okCall _ ok_prints ok_nonzero (by decide)
  have hkern := (kern_emits ok_prints).unique (hagree _ List.mem_cons_self)
  exact absurd hkern (by decide)

end Printers

end Jos

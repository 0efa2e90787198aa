import Jos.Formats

/-!
# Printing to a buffer, `vsnprintf` in `lib/printfmt.c`

`vsnprintf` gives `vprintfmt` a `putch` that counts the characters and stores them as long as
there is room, and writes a `NUL` behind what it has stored.

The memory that it leaves is described at once: `stored` is a memory with a string in it.
-/

namespace Jos

namespace Snprintf

open Printfmt Formats

/-- `struct sprintbuf`, and the memory. -/
structure Sprintbuf where
  buf : U32
  ebuf : U32
  cnt : Int
  mem : U32 → U8

/-- `sprintputch`. -/
def sprintputch (b : Sprintbuf) (ch : Int) : Sprintbuf :=
  let b := { b with cnt := int (b.cnt + 1) }
  if b.buf < b.ebuf then
    { b with mem := Function.update b.mem b.buf (BitVec.ofInt 8 ch), buf := b.buf + 1#32 }
  else b

/-- `vsnprintf`: the memory that it leaves and what it returns, if `vprintfmt` needs less than
`fuel` turns. -/
def vsnprintf (buf : U32) (n : Int) (c : Call) (fuel : Nat) (mem : U32 → U8) :
    Option ((U32 → U8) × Int) :=
  if buf = 0#32 ∨ n < 1 then some (mem, -eInval)
  else (vprintfmt c fuel).map (fun out =>
    let b := out.foldl sprintputch ⟨buf, buf + BitVec.ofInt 32 n - 1#32, 0, mem⟩
    (Function.update b.mem b.buf 0#8, b.cnt))

/-- `vsnprintf` returns with this memory and this result. -/
def Snprints (buf : U32) (n : Int) (c : Call) (mem mem' : U32 → U8) (r : Int) : Prop :=
  ∃ k, ∀ fuel, k ≤ fuel → vsnprintf buf n c fuel mem = some (mem', r)

/-- There is a buffer of `n` bytes. -/
structure Buffer (buf : U32) (n : Nat) : Prop where
  notNull : buf ≠ 0#32
  pos : 1 ≤ n
  isInt : n < 2 ^ 31
  inMemory : buf.toNat + n ≤ 2 ^ 32

/-- The bytes from an address on. -/
def bytesAt (mem : U32 → U8) (a : U32) (n : Nat) : List U8 :=
  (List.range n).map (fun i => mem (a + BitVec.ofNat 32 i))

/-- The memory with these bytes from an address on. -/
def stored (mem : U32 → U8) (a : U32) (bs : List U8) : U32 → U8 := fun x =>
  bs.getD (x - a).toNat (mem x)

/-! ## A string in memory -/

section Stored

variable {mem : U32 → U8} {a : U32} {bs : List U8}

theorem stored_nil : stored mem a [] = mem := rfl

theorem offset_eq {i : Nat} (hlt : i < 2 ^ 32) : (a + BitVec.ofNat 32 i - a).toNat = i := by
  rw [BitVec.add_comm, BitVec.add_sub_cancel, BitVec.toNat_ofNat, Nat.mod_eq_of_lt hlt]

/-- One more byte. -/
theorem stored_append {b : U8} (hlt : bs.length < 2 ^ 32) :
    stored mem a (bs ++ [b]) =
      Function.update (stored mem a bs) (a + BitVec.ofNat 32 bs.length) b := by
  funext x
  unfold stored
  by_cases hx : x = a + BitVec.ofNat 32 bs.length
  · subst hx
    rw [Function.update_self, offset_eq hlt]
    simp
  · rw [Function.update_of_ne hx]
    have hne : (x - a).toNat ≠ bs.length := by
      intro heq
      apply hx
      rw [← heq, BitVec.ofNat_toNat, BitVec.setWidth_eq, BitVec.add_comm, BitVec.sub_add_cancel]
    simp only [List.getD_eq_getElem?_getD, List.getElem?_append]
    split
    · rfl
    · next hge =>
        rw [List.getElem?_eq_none (by rw [List.length_singleton]; omega),
          List.getElem?_eq_none (by omega)]

theorem stored_bytesAt {k : Nat} (hle : k ≤ bs.length) (hlt : bs.length ≤ 2 ^ 32) :
    bytesAt (stored mem a bs) a k = bs.take k := by
  apply List.ext_getElem
  · simp [bytesAt, hle]
  · intro i hi hi'
    have hik : i < k := by simpa [bytesAt] using hi
    simp only [bytesAt, List.getElem_map, List.getElem_range, List.getElem_take]
    unfold stored
    rw [offset_eq (by omega)]
    simp [List.getD_eq_getElem?_getD, List.getElem?_eq_getElem (by omega : i < bs.length)]

/-- Other bytes stay as they are. -/
theorem stored_outside {n : Nat} (hle : bs.length ≤ n) (hn : a.toNat + n ≤ 2 ^ 32) {x : U32}
    (hx : x.toNat < a.toNat ∨ a.toNat + n ≤ x.toNat) : stored mem a bs x = mem x := by
  unfold stored
  have hge : bs.length ≤ (x - a).toNat := by
    bv_omega
  rw [List.getD_eq_getElem?_getD, List.getElem?_eq_none hge, Option.getD_none]

end Stored

/-! ## What `sprintputch` keeps -/

/-- The state when these characters have been printed to a buffer of `n` bytes. -/
structure Sprinted (buf : U32) (n : Nat) (mem : U32 → U8) (done : List Int) (b : Sprintbuf) :
    Prop where
  cnt : b.cnt = int done.length
  ebuf : b.ebuf = buf + BitVec.ofInt 32 n - 1#32
  buf_eq : b.buf = buf + BitVec.ofNat 32 (min (n - 1) done.length)
  mem_eq : b.mem = stored mem buf ((done.take (n - 1)).map (BitVec.ofInt 8))

theorem Sprinted.start (buf : U32) (n : Nat) (mem : U32 → U8) :
    Sprinted buf n mem [] ⟨buf, buf + BitVec.ofInt 32 n - 1#32, 0, mem⟩ where
  cnt := rfl
  ebuf := rfl
  buf_eq := by simp
  mem_eq := by rw [List.take_nil, List.map_nil, stored_nil]

theorem int_succ (k : Nat) : int (int k + 1) = int (k + 1 : Nat) := by
  unfold int
  rw [Int.bmod_add_bmod]
  rfl

/-- One character is printed. -/
theorem Sprinted.put {buf : U32} {n : Nat} {mem : U32 → U8} {done : List Int} {b : Sprintbuf}
    (h : Sprinted buf n mem done b) (hbuffer : Buffer buf n) (ch : Int) :
    Sprinted buf n mem (done ++ [ch]) (sprintputch b ch) := by
  obtain ⟨hcnt, hebuf, hbuf, hmem⟩ := h
  obtain ⟨-, hpos, hint, hin⟩ := hbuffer
  have hcnt' : int (b.cnt + 1) = int (done ++ [ch]).length := by
    rw [hcnt, int_succ, List.length_append, List.length_singleton]
  have hroom : b.buf < b.ebuf ↔ done.length < n - 1 := by
    rw [hebuf, hbuf, BitVec.ofInt_natCast, BitVec.lt_def]
    have hsum : (buf + BitVec.ofNat 32 n - 1#32).toNat = buf.toNat + (n - 1) := by
      bv_omega
    have hat : (buf + BitVec.ofNat 32 (min (n - 1) done.length)).toNat =
        buf.toNat + min (n - 1) done.length := by
      have hle : min (n - 1) done.length ≤ n - 1 := Nat.min_le_left _ _
      bv_omega
    rw [hsum, hat]
    omega
  unfold sprintputch
  dsimp only
  split
  · next hlt =>
      have hless := hroom.mp hlt
      have hat : min (n - 1) done.length = done.length := by omega
      refine ⟨hcnt', hebuf, ?_, ?_⟩
      · have hnext : min (n - 1) (done ++ [ch]).length = done.length + 1 := by
          rw [List.length_append, List.length_singleton]
          omega
        rw [hbuf, hat, hnext, BitVec.add_assoc, BitVec.ofNat_add]
      · have hwhole : (done ++ [ch]).take (n - 1) = done ++ [ch] := by
          apply List.take_of_length_le
          rw [List.length_append, List.length_singleton]
          omega
        rw [hmem, hbuf, hat, hwhole, List.take_of_length_le (by omega), List.map_append,
          List.map_singleton, stored_append (by rw [List.length_map]; omega), List.length_map]
  · next hfull =>
      have hge : n - 1 ≤ done.length := Nat.le_of_not_lt (fun hlt => hfull (hroom.mpr hlt))
      refine ⟨hcnt', hebuf, ?_, ?_⟩
      · rw [hbuf, List.length_append, List.length_singleton]
        congr 2
        omega
      · rw [hmem, List.take_append_of_le_length hge]

theorem Sprinted.all {buf : U32} {n : Nat} {mem : U32 → U8} (hbuffer : Buffer buf n)
    (cs : List Int) {done : List Int} {b : Sprintbuf} (h : Sprinted buf n mem done b) :
    Sprinted buf n mem (done ++ cs) (cs.foldl sprintputch b) := by
  induction cs generalizing done b with
  | nil =>
      rw [List.append_nil]
      exact h
  | cons ch cs ih =>
      have hrest := ih (h.put hbuffer ch)
      rwa [List.append_assoc] at hrest

/-- The string that is left in a buffer of `n` bytes. -/
def shown (n : Nat) (out : List Int) : List U8 := (out.take (n - 1)).map (BitVec.ofInt 8)

theorem shown_length (n : Nat) (out : List Int) :
    (shown n out).length = min (n - 1) out.length := by
  rw [shown, List.length_map, List.length_take]

/-- What `vsnprintf` does, for a format that prints this. -/
theorem snprints_out {c : Call} {out : List Int} (hprints : Prints c out) {buf : U32} {n : Nat}
    (hbuffer : Buffer buf n) (mem : U32 → U8) :
    Snprints buf n c mem (stored mem buf (shown n out ++ [0#8])) (int out.length) := by
  obtain ⟨k, hk⟩ := hprints
  refine ⟨k, fun fuel hfuel => ?_⟩
  have hvalid : ¬ (buf = 0#32 ∨ (n : Int) < 1) := by
    have hpos := hbuffer.pos
    rintro (hnull | hless)
    · exact hbuffer.notNull hnull
    · omega
  have hall := (Sprinted.start buf n mem).all hbuffer out
  rw [List.nil_append] at hall
  have hlen : (shown n out).length < 2 ^ 32 := by
    have hint := hbuffer.isInt
    rw [shown_length]
    omega
  unfold vsnprintf
  rw [if_neg hvalid, hk fuel hfuel, Option.map_some, stored_append hlen, shown_length]
  dsimp only
  rw [hall.mem_eq, hall.buf_eq, hall.cnt]
  rfl

theorem Snprints.unique {buf : U32} {n : Int} {c : Call} {mem mem₁ mem₂ : U32 → U8} {r₁ r₂ : Int}
    (h₁ : Snprints buf n c mem mem₁ r₁) (h₂ : Snprints buf n c mem mem₂ r₂) :
    mem₁ = mem₂ ∧ r₁ = r₂ := by
  obtain ⟨k₁, hk₁⟩ := h₁
  obtain ⟨k₂, hk₂⟩ := h₂
  have heq := (hk₁ (max k₁ k₂) (Nat.le_max_left _ _)).symm.trans (hk₂ _ (Nat.le_max_right _ _))
  exact Prod.mk.inj (Option.some.inj heq)

/-! ## Every buffer -/

/-- The full output. -/
def output (c : Call) (format : List U8) : List Int := written c 0 (pieces format)

/-- What is left in memory: what there was outside of the buffer, and as much of the output as
there is room for, with a `NUL` behind it. -/
structure Leaves (buf : U32) (n : Nat) (out : List Int) (mem mem' : U32 → U8) : Prop where
  inside : ∀ x, x.toNat < buf.toNat ∨ buf.toNat + n ≤ x.toNat → mem' x = mem x
  chars : bytesAt mem' buf (min (n - 1) out.length) = shown n out
  nul : mem' (buf + BitVec.ofNat 32 (min (n - 1) out.length)) = 0#8

theorem stored_leaves {buf : U32} {n : Nat} (hbuffer : Buffer buf n) (out : List Int)
    (mem : U32 → U8) : Leaves buf n out mem (stored mem buf (shown n out ++ [0#8])) := by
  obtain ⟨-, hpos, hint, hin⟩ := hbuffer
  have hlen : (shown n out ++ [0#8]).length = min (n - 1) out.length + 1 := by
    rw [List.length_append, shown_length, List.length_singleton]
  constructor
  · exact fun x hx => stored_outside (by rw [hlen]; omega) hin hx
  · rw [stored_bytesAt (by omega) (by omega), ← shown_length, List.take_left]
  · unfold stored
    rw [offset_eq (by omega), ← shown_length]
    simp

theorem Snprints.leaves {c : Call} {out : List Int} (hprints : Prints c out) {buf : U32} {n : Nat}
    (hbuffer : Buffer buf n) {mem mem' : U32 → U8} {r : Int} (h : Snprints buf n c mem mem' r) :
    Leaves buf n out mem mem' := by
  rw [(h.unique (snprints_out hprints hbuffer mem)).1]
  exact stored_leaves hbuffer out mem

theorem int_natCast {k : Nat} (hlt : k < 2 ^ 31) : int k = k := int_eq (by omega) (by omega)

theorem shown_prefix {n n' : Nat} (hle : n ≤ n') (out : List Int) :
    shown n out <+: shown n' out := by
  have hmin : min (n - 1) (n' - 1) = n - 1 := by omega
  have htake : out.take (n - 1) <+: out.take (n' - 1) := by
    rw [← hmin, ← List.take_take]
    exact List.take_prefix _ _
  exact htake.map _

/-- A call leaves as much of the output as there is room for, and returns the length of the whole
output, as an `int`; with room for the whole output it leaves the whole output, and with less
room it leaves a prefix of what it leaves with more. -/
theorem vsnprintf_truncates (c : Call) (format : List U8) (hnonzero : ∀ b, b ∈ format → b ≠ 0#8)
    (hfmt : FmtAt c 0 (format ++ [0#8])) :
    (∀ buf n mem, Buffer buf n → ∃ mem', Snprints buf n c mem mem' (int (output c format).length) ∧
      Leaves buf n (output c format) mem mem') ∧
    ((output c format).length < 2 ^ 31 →
      int (output c format).length = (output c format).length) ∧
    (∀ buf n mem, Buffer buf n → n = (output c format).length + 1 →
      ∃ mem', Snprints buf n c mem mem' (output c format).length ∧
        bytesAt mem' buf (output c format).length = (output c format).map (BitVec.ofInt 8)) ∧
    (∀ buf n mem mem' r, ∀ buf₂ n₂ mem₂ mem₂' r₂, Buffer buf n → Buffer buf₂ n₂ → n ≤ n₂ →
      Snprints buf n c mem mem' r → Snprints buf₂ n₂ c mem₂ mem₂' r₂ →
        bytesAt mem' buf (min (n - 1) (output c format).length) <+:
          bytesAt mem₂' buf₂ (min (n₂ - 1) (output c format).length)) := by
  have hprints : Prints c (output c format) := pieces_printed hnonzero hfmt
  refine ⟨?_, int_natCast, ?_, ?_⟩
  · intro buf n mem hbuffer
    exact ⟨_, snprints_out hprints hbuffer mem, stored_leaves hbuffer _ mem⟩
  · intro buf n mem hbuffer hn
    have hlt := hbuffer.isInt
    have hreturns := snprints_out hprints hbuffer mem
    rw [int_natCast (by omega)] at hreturns
    refine ⟨_, hreturns, ?_⟩
    have hchars := (stored_leaves hbuffer (output c format) mem).chars
    have hroom : min (n - 1) (output c format).length = (output c format).length := by omega
    rw [hroom] at hchars
    rw [hchars, shown, List.take_of_length_le (by omega)]
  · intro buf n mem mem' r buf₂ n₂ mem₂ mem₂' r₂ hbuffer hbuffer₂ hle h h₂
    rw [(h.leaves hprints hbuffer).chars, (h₂.leaves hprints hbuffer₂).chars]
    exact shown_prefix hle _

/-- `"%*sa"`, with a width and the empty string. -/
def wideFormat : List U8 := bytes ['%', '*', 's', 'a']

def wideCall (width : U32) : Call where
  fmt i := (wideFormat ++ [0#8]).getD i 0#8
  arg i := [width, 1#32].getD i 0#32
  str _ := []

theorem wide_nonzero : ∀ b, b ∈ wideFormat → b ≠ 0#8 := by decide

theorem wide_fmt (width : U32) : FmtAt (wideCall width) 0 (wideFormat ++ [0#8]) :=
  ⟨rfl, rfl, rfl, rfl, rfl, trivial⟩

theorem string_empty {s : Printing} {e : Escape} (hbefore : 0 < e.width ∧ e.padc ≠ code '-') :
    (s.string e []).out = s.out ++ repeatPutch e.padc e.width := by
  unfold Printing.string Printing.put Printing.next
  simp [hbefore]

theorem wide_output {width : U32} (hpos : 0 < width.toInt) :
    output (wideCall width) wideFormat = repeatPutch (code ' ') width.toInt ++ [code 'a'] := by
  have hout : output (wideCall width) wideFormat =
      ((Printing.mk 0 2 [] (.escape { Escape.start with width := width.toInt })).string
        { Escape.start with width := width.toInt } []).out ++ [code 'a'] := rfl
  rw [hout, string_empty ⟨hpos, show code ' ' ≠ code '-' by decide⟩]
  rfl

theorem wide_length {width : U32} (hpos : 0 < width.toInt) :
    (output (wideCall width) wideFormat).length = width.toInt.toNat + 1 := by
  rw [wide_output hpos, List.length_append, repeatPutch, List.length_replicate]
  rfl

/-- An output of `2 ^ 31` characters has no length. -/
theorem vsnprintf_long : ¬ ∀ (c : Call) (format : List U8), (∀ b, b ∈ format → b ≠ 0#8) →
    FmtAt c 0 (format ++ [0#8]) → ∀ buf n mem, Buffer buf n →
      ∃ mem', Snprints buf n c mem mem' (output c format).length := by
  intro h
  have hlen : (output (wideCall 0x7fffffff#32) wideFormat).length = 2 ^ 31 :=
    wide_length (by decide)
  have hbuffer : Buffer 1#32 1 := ⟨by decide, by decide, by decide, by decide⟩
  obtain ⟨mem', hreturns⟩ := h (wideCall 0x7fffffff#32) wideFormat wide_nonzero
    (wide_fmt _) 1#32 1 (fun _ => 0#8) hbuffer
  have hprints : Prints (wideCall 0x7fffffff#32) (output (wideCall 0x7fffffff#32) wideFormat) :=
    pieces_printed wide_nonzero (wide_fmt _)
  have hint := (hreturns.unique (snprints_out hprints hbuffer _)).2
  have hwraps : int (2 ^ 31 : Nat) = -2 ^ 31 := by decide
  rw [hlen, hwraps] at hint
  omega

/-- `"%*sa"` with width 3, in a buffer of 3 bytes. -/
theorem vsnprintf_truncates_wide :
    (∀ b, b ∈ wideFormat → b ≠ 0#8) ∧
      ∃ mem', Snprints 0x1000#32 3 (wideCall 3#32) (fun _ => 0xff#8) mem' 4 ∧
        Leaves 0x1000#32 3 ([' ', ' ', ' ', 'a'].map code) (fun _ => 0xff#8) mem' := by
  have hbuffer : Buffer 0x1000#32 3 := ⟨by decide, by decide, by decide, by decide⟩
  have hout : output (wideCall 3#32) wideFormat = [' ', ' ', ' ', 'a'].map code :=
    (wide_output (by decide)).trans (by decide)
  have h := (vsnprintf_truncates (wideCall 3#32) wideFormat wide_nonzero (wide_fmt _)).1
    0x1000#32 3 (fun _ => 0xff#8) hbuffer
  rw [hout] at h
  exact ⟨wide_nonzero, h⟩

end Snprintf

end Jos

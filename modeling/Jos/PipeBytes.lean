import Jos.PipeBuffer

/-!
# The bytes of a pipe come out as they went in

`Flow` says which bytes are in the buffer and what each of the two environments has
done with its current byte.  Every move keeps it, so that what the reads return is
what the writes were given, in order.

A read may still miss bytes: it finds the pipe empty, then the writer puts bytes in
and gives up its end, and then the read finds the writers gone.
-/

namespace Jos

open Bytes Ring

/-- What the environments may rely on. -/
structure PipeSound (r : PipeRun) : Prop where
  low : r.rpos.toInt ≤ r.wpos.toInt
  high : r.wpos.toInt ≤ r.rpos.toInt + pipebufsiz
  fifo : (r.reads.map ReadDone.got).flatten <+: r.begun.flatten
  writes : ∀ d, d ∈ r.writes → d.result ≠ 0 ∨ d.data = [] →
    d.delivered = d.data ∧ d.result = d.data.length
  reads : ∀ d, d ∈ r.reads → 0 < d.n → d.got = [] → d.ended = true

/-- The writer does not give up the pipe while a read has found it empty, has yet to
check the ends, and bytes have come since. -/
def PipeClean (r : PipeRun) : PipeMove → Prop
  | .writer _ => ∀ n, r.writer = .closing → r.reader = .check n → r.rpos = r.wpos
  | _ => True

/-! ## The invariant -/

/-- The references of a reader to the page of its descriptor and to the pipe. -/
def Reader.fd : Reader → Nat
  | closing => 0
  | gone => 0
  | _ => 1

def Reader.holds : Reader → Nat
  | gone => 0
  | _ => 1

def Writer.fd : Writer → Nat
  | closing => 0
  | gone => 0
  | _ => 1

def Writer.holds : Writer → Nat
  | gone => 0
  | _ => 1

/-- What a reader has done, if earlier reads have returned `read` and the bytes `q` are
in the pipe. -/
def Reader.Ok (read taken q : List U8) (ended : Prop) : Reader → Prop
  | idle => read = taken
  | loop _ got => read ++ got = taken
  | check _ => read = taken ∧ (ended → q = [])
  | take _ got => read ++ got = taken ∧ q ≠ []
  | bump _ got b => read ++ got = taken ∧ q.head? = some b
  | closing => read <+: taken
  | gone => read <+: taken

/-- What a write in progress has done; nothing is known of earlier ones if the writer is
alone. -/
structure Writing.Ok (c : Writing) (begun : List (List U8)) (written : List U8)
    (alone : Prop) : Prop where
  le : c.i ≤ c.data.length
  base : c.base ≤ written.length
  delivered : written.drop c.base = c.data.take c.i
  whole : ¬ alone → ∃ old, begun = old ++ [c.data] ∧
    written = old.flatten ++ c.data.take c.i

/-- What a writer has done, if `cell` is the next byte of the buffer. -/
def Writer.Ok (begun : List (List U8)) (written q : List U8) (cell : U8) (alone : Prop) :
    Writer → Prop
  | idle => ¬ alone → written = begun.flatten
  | loop c => c.Ok begun written alone
  | check c => c.Ok begun written alone
  | put c => c.Ok begun written alone ∧ c.i < c.data.length ∧ q.length < pipebufsiz
  | bump c =>
      c.Ok begun written alone ∧ c.i < c.data.length ∧ q.length < pipebufsiz ∧
        cell = c.data.getD c.i 0#8
  | closing => ¬ alone → written <+: begun.flatten
  | gone => ¬ alone → written <+: begun.flatten

theorem Writer.Ok.shrink {pc : Writer} {begun : List (List U8)} {written q q' : List U8}
    {cell : U8} {alone : Prop} (h : pc.Ok begun written q cell alone)
    (hle : q'.length ≤ q.length) : pc.Ok begun written q' cell alone := by
  cases pc with
  | put c => exact ⟨h.1, h.2.1, Nat.lt_of_le_of_lt hle h.2.2⟩
  | bump c => exact ⟨h.1, h.2.1, Nat.lt_of_le_of_lt hle h.2.2.1, h.2.2.2⟩
  | _ => exact h

theorem Writer.Ok.mono {pc : Writer} {begun : List (List U8)} {written q : List U8}
    {cell : U8} {alone alone' : Prop} (h : pc.Ok begun written q cell alone)
    (halone : alone → alone') : pc.Ok begun written q cell alone' := by
  have hcall : ∀ c : Writing, c.Ok begun written alone → c.Ok begun written alone' :=
    fun c hok => { hok with whole := fun hopen => hok.whole (fun ha => hopen (halone ha)) }
  cases pc with
  | idle => exact fun hopen => h (fun ha => hopen (halone ha))
  | loop c => exact hcall c h
  | check c => exact hcall c h
  | put c => exact ⟨hcall c h.1, h.2⟩
  | bump c => exact ⟨hcall c h.1, h.2⟩
  | closing => exact fun hopen => h (fun ha => hopen (halone ha))
  | gone => exact fun hopen => h (fun ha => hopen (halone ha))

/-- A byte that comes does not disturb a reader, as the writer is there. -/
theorem Reader.Ok.grow {pc : Reader} {read taken q q' : List U8}
    (h : pc.Ok read taken q (1 = 0)) : pc.Ok read taken (q ++ q') (1 = 0) := by
  cases pc with
  | check n => exact ⟨h.1, fun hover => absurd hover (by decide)⟩
  | take n got => exact ⟨h.1, fun hnil => h.2 (List.append_eq_nil_iff.mp hnil).1⟩
  | bump n got b =>
      refine ⟨h.1, ?_⟩
      cases q with
      | nil => cases h.2
      | cons x q => exact h.2
  | _ => exact h

/-- The bytes `q` are in the pipe. -/
structure Flow (r : PipeRun) (q : List U8) : Prop where
  written : r.written = r.taken ++ q
  room : q.length ≤ pipebufsiz
  rpos : r.rpos.toNat = r.taken.length
  wpos : r.wpos.toNat = r.written.length
  bytes : Span (fun c x => r.page (pbufVa + c) = x) pipebufsiz r.taken.length q
  rfd : r.rfd = r.reader.fd
  wfd : r.wfd = r.writer.fd
  data : r.data = r.reader.holds + r.writer.holds
  reader : r.reader.Ok (r.reads.map ReadDone.got).flatten r.taken q (r.writer.holds = 0)
  writer : r.writer.Ok r.begun r.written q (r.page (pbufVa + r.written.length % pipebufsiz))
    (r.reader.holds = 0)
  begun : r.taken <+: r.begun.flatten
  writes : ∀ d, d ∈ r.writes → d.result ≠ 0 ∨ d.data = [] →
    d.delivered = d.data ∧ d.result = d.data.length
  reads : ∀ d, d ∈ r.reads → 0 < d.n → d.got = [] → d.ended = true

section Positions

variable {r : PipeRun} {q taken written : List U8} {pos : U32} {v : Bytes.Memory} {b : U8}

/-- The remainder of a position up to 2^31. -/
theorem srem_pipebufsiz (h : pos.toNat ≤ 2 ^ 31) :
    (pos.srem 32#32).toInt = (pos.toNat % 32 : Nat) := by
  rcases Nat.lt_or_eq_of_le h with hlt | heq
  · rw [BitVec.toInt_srem, BitVec.toInt_eq_toNat_of_lt (by omega)]
    exact Int.tmod_eq_emod_of_nonneg (by omega)
  · -- the least signed number is a multiple of 32
    obtain rfl : pos = 0x80000000#32 := BitVec.eq_of_toNat_eq heq
    decide

/-- The place of such a position. -/
theorem pbufAt_eq (h : pos.toNat ≤ 2 ^ 31) :
    pbufAt pos = pbufVa + pos.toNat % pipebufsiz := by
  unfold pbufAt pipebufsiz
  rw [srem_pipebufsiz h]
  omega

theorem toNat_succ (h : pos.toNat ≤ 2 ^ 31) : (pos + 1).toNat = pos.toNat + 1 := by
  rw [BitVec.toNat_add]
  exact Nat.mod_eq_of_lt (by simp; omega)

/-- A position is not in the buffer. -/
theorem word_update {a x : Nat} {b : U8} (ha : a + 4 ≤ x) :
    word (Function.update v x b) a = word v a :=
  word_congr (fun y _ hlt => update_of_apart (by omega))

theorem setWord_pbuf {a c : Nat} {w : U32} (ha : a + 4 ≤ pbufVa) :
    setWord v a w (pbufVa + c) = v (pbufVa + c) := setWord_of_apart (Or.inr (by omega))

/-! ## The page -/

/-- The bytes `q` are in the page, between those that are taken and all that are written. -/
structure PipePage (page : Bytes.Memory) (taken written q : List U8) : Prop where
  eq_append : written = taken ++ q
  room : q.length ≤ pipebufsiz
  rpos : (word page rposVa).toNat = taken.length
  wpos : (word page wposVa).toNat = written.length
  bytes : Span (fun c x => page (pbufVa + c) = x) pipebufsiz taken.length q

theorem PipePage.lengths (h : PipePage v taken written q) :
    written.length = taken.length + q.length := by
  rw [h.eq_append, List.length_append]

theorem PipePage.empty_iff (h : PipePage v taken written q) :
    word v rposVa = word v wposVa ↔ q = [] := by
  rw [BitVec.toNat_eq, h.rpos, h.wpos, h.lengths, ← List.length_eq_zero_iff]
  omega

theorem PipePage.full_iff (h : PipePage v taken written q) (hfew : written.length ≤ 2 ^ 31 + 1) :
    word v rposVa + BitVec.ofNat 32 pipebufsiz ≤ word v wposVa ↔ pipebufsiz ≤ q.length := by
  have hlen := h.lengths
  have hsum : (word v rposVa + BitVec.ofNat 32 pipebufsiz).toNat =
      taken.length + pipebufsiz := by
    rw [BitVec.toNat_add, h.rpos]
    unfold pipebufsiz
    exact Nat.mod_eq_of_lt (by simp; omega)
  rw [BitVec.le_def, hsum, h.wpos, hlen]
  omega

/-- The first byte is taken. -/
theorem PipePage.take (h : PipePage v taken written (b :: q)) (hfew : taken.length ≤ 2 ^ 31) :
    PipePage (setWord v rposVa (word v rposVa + 1)) (taken ++ [b]) written q where
  eq_append := by rw [h.eq_append, List.append_assoc, List.singleton_append]
  room := Nat.le_of_succ_le h.room
  rpos := by
    rw [word_setWord_self, toNat_succ (by rw [h.rpos]; exact hfew), h.rpos, List.length_append,
      List.length_singleton]
  wpos := by
    rw [word_setWord_of_apart (by decide)]
    exact h.wpos
  bytes := by
    have hspan : Span (fun c x => v (pbufVa + c) = x) pipebufsiz (taken.length + 1) q := h.bytes.2
    rw [List.length_append, List.length_singleton]
    exact hspan.congr (fun _ _ _ hy => (setWord_pbuf (by decide)).trans hy)

/-- A byte is stored behind the others; it is not one of them yet. -/
theorem PipePage.store (h : PipePage v taken written q) (hfew : written.length ≤ 2 ^ 31)
    (hroom : q.length < pipebufsiz) :
    PipePage (Function.update v (pbufAt (word v wposVa)) b) taken written q ∧
      Function.update v (pbufAt (word v wposVa)) b (pbufVa + written.length % pipebufsiz) = b := by
  have hplace : pbufAt (word v wposVa) = pbufVa + written.length % pipebufsiz := by
    rw [pbufAt_eq (by rw [h.wpos]; exact hfew), h.wpos]
  have hfar : pbufVa ≤ pbufAt (word v wposVa) := by
    rw [hplace]
    exact Nat.le_add_right _ _
  refine ⟨⟨h.eq_append, h.room, ?_, ?_, ?_⟩, ?_⟩
  · rw [word_update (Nat.le_trans (by decide) hfar)]
    exact h.rpos
  · rw [word_update (Nat.le_trans (by decide) hfar)]
    exact h.wpos
  · refine h.bytes.congr (fun j y hj hy => ?_)
    refine (Function.update_of_ne ?_ _ _).trans hy
    have hne : (taken.length + j) % pipebufsiz ≠ written.length % pipebufsiz := by
      rw [h.lengths]
      exact mod_ne (by omega) (by omega)
    omega
  · rw [hplace, Function.update_self]

/-- Now it is. -/
theorem PipePage.put (h : PipePage v taken written q) (hfew : written.length ≤ 2 ^ 31)
    (hroom : q.length < pipebufsiz) (hcell : v (pbufVa + written.length % pipebufsiz) = b) :
    PipePage (setWord v wposVa (word v wposVa + 1)) taken (written ++ [b]) (q ++ [b]) where
  eq_append := by rw [h.eq_append, List.append_assoc]
  room := by
    rw [List.length_append]
    exact hroom
  rpos := by
    rw [word_setWord_of_apart (by decide)]
    exact h.rpos
  wpos := by
    rw [word_setWord_self, toNat_succ (by rw [h.wpos]; exact hfew), h.wpos, List.length_append,
      List.length_singleton]
  bytes := by
    refine h.bytes.push hroom (fun x y _ hy => (setWord_pbuf (by decide)).trans hy) ?_
    rw [← h.lengths]
    exact (setWord_pbuf (by decide)).trans hcell

theorem Flow.page (h : Flow r q) : PipePage r.page r.taken r.written q :=
  ⟨h.written, h.room, h.rpos, h.wpos, h.bytes⟩

theorem Flow.lengths (h : Flow r q) : r.written.length = r.taken.length + q.length :=
  h.page.lengths

theorem Flow.empty_iff (h : Flow r q) : r.rpos = r.wpos ↔ q = [] := h.page.empty_iff

theorem Flow.full_iff (h : Flow r q) (hfew : r.written.length < 2 ^ 31) :
    r.rpos + BitVec.ofNat 32 pipebufsiz ≤ r.wpos ↔ pipebufsiz ≤ q.length :=
  h.page.full_iff (by omega)

end Positions

section Moves

variable {r : PipeRun} {q : List U8} {n : Nat} {got : List U8} {c : Writing} {b : U8}

theorem Flow.start : Flow .start [] where
  written := rfl
  room := Nat.zero_le _
  rpos := rfl
  wpos := rfl
  bytes := trivial
  rfd := rfl
  wfd := rfl
  data := rfl
  reader := rfl
  writer := fun _ => rfl
  begun := List.prefix_refl _
  writes := fun _ hd => absurd hd List.not_mem_nil
  reads := fun _ hd => absurd hd List.not_mem_nil

/-- The reader goes on, and nothing else happens. -/
theorem Flow.reader_goes (h : Flow r q) {pc : Reader} (hfd : pc.fd = r.reader.fd)
    (hholds : pc.holds = r.reader.holds)
    (hok : pc.Ok (r.reads.map ReadDone.got).flatten r.taken q (r.writer.holds = 0)) :
    Flow { r with reader := pc } q :=
  { h with
    rfd := h.rfd.trans hfd.symm
    data := by
      change r.data = pc.holds + r.writer.holds
      rw [hholds, h.data]
    reader := hok
    writer := by
      change r.writer.Ok _ _ _ _ (pc.holds = 0)
      rw [hholds]
      exact h.writer }

theorem Flow.writer_goes (h : Flow r q) {pc : Writer} (hfd : pc.fd = r.writer.fd)
    (hholds : pc.holds = r.writer.holds)
    (hok : pc.Ok r.begun r.written q (r.page (pbufVa + r.written.length % pipebufsiz))
      (r.reader.holds = 0)) :
    Flow { r with writer := pc } q :=
  { h with
    wfd := h.wfd.trans hfd.symm
    data := by
      change r.data = r.reader.holds + pc.holds
      rw [hholds, h.data]
    reader := by
      change r.reader.Ok _ _ _ (pc.holds = 0)
      rw [hholds]
      exact h.reader
    writer := hok }

/-- A read returns what it has taken. -/
theorem Flow.read_returns (h : Flow r q) (hfd : r.reader.fd = 1)
    (hholds : r.reader.holds = 1)
    (hread : (r.reads.map ReadDone.got).flatten ++ got = r.taken)
    (hover : 0 < n → got = [] → r.rpos = r.wpos ∧ r.wfd = 0) :
    Flow (r.readReturns n got) q :=
  { h with
    rfd := h.rfd.trans hfd
    data := by
      have hdata := h.data
      rwa [hholds] at hdata
    reader := by
      change (List.map ReadDone.got (r.reads ++ [_])).flatten = r.taken
      rw [← hread]
      simp
    writer := by
      have hwriter := h.writer
      rwa [hholds] at hwriter
    reads := fun d hd hn hgot => by
      rcases List.mem_append.mp hd with hd | hd
      · exact h.reads d hd hn hgot
      · rw [List.mem_singleton.mp hd] at hn hgot ⊢
        exact decide_eq_true (hover hn hgot) }

/-- A write returns the number of bytes that it has put. -/
theorem Flow.write_returns (h : Flow r q) {result : Nat} (hfd : r.writer.fd = 1)
    (hholds : r.writer.holds = 1) (hok : c.Ok r.begun r.written (r.reader.holds = 0))
    (hresult : r.reader.holds = 0 ∨ c.i = c.data.length)
    (hdone : result ≠ 0 ∨ c.data = [] → c.i = c.data.length ∧ result = c.data.length) :
    Flow (r.writeReturns c result) q :=
  { h with
    wfd := h.wfd.trans hfd
    data := by
      have hdata := h.data
      rwa [hholds] at hdata
    reader := by
      have hreader := h.reader
      rwa [hholds] at hreader
    writer := fun hopen => by
      obtain ⟨old, hbegun, hwritten⟩ := hok.whole hopen
      change r.written = r.begun.flatten
      rcases hresult with hgone | hall
      · exact absurd hgone hopen
      · rw [hwritten, hbegun, hall, List.take_length]
        simp
    writes := fun d hd hres => by
      rcases List.mem_append.mp hd with hd | hd
      · exact h.writes d hd hres
      · rw [List.mem_singleton.mp hd] at hres ⊢
        obtain ⟨hall, heq⟩ := hdone hres
        refine ⟨?_, heq⟩
        change r.written.drop c.base = c.data
        rw [hok.delivered, hall, List.take_length] }

/-- What is put in is begun, while the reader is there. -/
theorem Flow.live (h : Flow r q) (hopen : ¬ r.reader.holds = 0) :
    r.written <+: r.begun.flatten := by
  have hcall : ∀ c : Writing, c.Ok r.begun r.written (r.reader.holds = 0) →
      r.written <+: r.begun.flatten := by
    intro c hok
    obtain ⟨old, hbegun, hwritten⟩ := hok.whole hopen
    rw [hwritten, hbegun, List.flatten_append, List.flatten_singleton]
    exact List.prefix_append_right_inj _ |>.mpr (List.take_prefix _ _)
  have hwriter := h.writer
  cases hpc : r.writer with
  | idle =>
      rw [hpc] at hwriter
      exact hwriter hopen ▸ List.prefix_refl _
  | loop c =>
      rw [hpc] at hwriter
      exact hcall c hwriter
  | check c =>
      rw [hpc] at hwriter
      exact hcall c hwriter
  | put c =>
      rw [hpc] at hwriter
      exact hcall c hwriter.1
  | bump c =>
      rw [hpc] at hwriter
      exact hcall c hwriter.1
  | closing =>
      rw [hpc] at hwriter
      exact hwriter hopen
  | gone =>
      rw [hpc] at hwriter
      exact hwriter hopen

/-- A byte leaves the pipe. -/
theorem Flow.taken (h : Flow r q) (hfew : r.written.length < 2 ^ 31)
    (hpc : r.reader = .bump n got b) :
    ∃ q', Flow { r with
      page := setWord r.page rposVa (r.rpos + 1)
      reader := .loop n (got ++ [b])
      taken := r.taken ++ [b] } q' := by
  have hreader := h.reader
  rw [hpc] at hreader
  obtain ⟨hread, hhead⟩ := hreader
  have hlen := h.lengths
  cases q with
  | nil => cases hhead
  | cons x q =>
      obtain rfl : x = b := Option.some.inj hhead
      have hholds : r.reader.holds = 1 := by rw [hpc]; rfl
      have hpage := h.page.take (by omega)
      refine ⟨q, hpage.eq_append, hpage.room, hpage.rpos, hpage.wpos, hpage.bytes, ?_, h.wfd, ?_,
        ?_, ?_, ?_, h.writes, h.reads⟩
      · exact h.rfd.trans (by rw [hpc]; rfl)
      · have hdata := h.data
        rwa [hholds] at hdata
      · exact hread ▸ (List.append_assoc _ _ _).symm
      · have hwriter := h.writer
        rw [hholds] at hwriter
        change r.writer.Ok _ _ q (setWord r.page rposVa _ _) _
        rw [setWord_pbuf (by decide)]
        exact hwriter.shrink (Nat.le_succ _)
      · have hlive := h.live (by rw [hholds]; decide)
        rw [h.written] at hlive
        refine List.IsPrefix.trans ?_ hlive
        rw [show r.taken ++ x :: q = r.taken ++ [x] ++ q by simp]
        exact List.prefix_append _ _

/-- A byte is stored behind the others; it is not in the pipe yet. -/
theorem Flow.stored (h : Flow r q) (hfew : r.written.length < 2 ^ 31)
    (hpc : r.writer = .put c) :
    Flow { r with
      page := Function.update r.page (pbufAt r.wpos) (c.data.getD c.i 0#8)
      writer := .bump c } q := by
  have hwriter := h.writer
  rw [hpc] at hwriter
  obtain ⟨hok, hi, hroom⟩ := hwriter
  obtain ⟨hpage, hcell⟩ := h.page.store (b := c.data.getD c.i 0#8) (Nat.le_of_lt hfew) hroom
  refine ⟨hpage.eq_append, hpage.room, hpage.rpos, hpage.wpos, hpage.bytes, h.rfd, ?_, ?_, ?_, ?_,
    h.begun, h.writes, h.reads⟩
  · exact h.wfd.trans (by rw [hpc]; rfl)
  · exact h.data.trans (by rw [hpc]; rfl)
  · have hreader := h.reader
    rwa [hpc] at hreader
  · exact ⟨hok, hi, hroom, hcell⟩

/-- A byte comes into the pipe. -/
theorem Flow.put (h : Flow r q) (hfew : r.written.length + 1 < 2 ^ 31)
    (hpc : r.writer = .bump c) :
    Flow { r with
      page := setWord r.page wposVa (r.wpos + 1)
      writer := .loop { c with i := c.i + 1 }
      written := r.written ++ [c.data.getD c.i 0#8] } (q ++ [c.data.getD c.i 0#8]) := by
  have hwriter := h.writer
  rw [hpc] at hwriter
  obtain ⟨hok, hi, hroom, hcell⟩ := hwriter
  have hholds : r.writer.holds = 1 := by rw [hpc]; rfl
  have hnext : c.data.take (c.i + 1) = c.data.take c.i ++ [c.data.getD c.i 0#8] := by
    rw [List.take_succ_eq_append_getElem hi, List.getD_eq_getElem _ _ hi]
  have hpage := h.page.put (by omega) hroom hcell
  refine ⟨hpage.eq_append, hpage.room, hpage.rpos, hpage.wpos, hpage.bytes, h.rfd, ?_, ?_, ?_, ?_,
    h.begun, h.writes, h.reads⟩
  · exact h.wfd.trans (by rw [hpc]; rfl)
  · exact h.data.trans (by rw [hpc]; rfl)
  · have hreader := h.reader
    rw [hholds] at hreader
    exact hreader.grow
  · refine ⟨hi, ?_, ?_, fun hopen => ?_⟩
    · rw [List.length_append]
      exact Nat.le_add_right_of_le hok.base
    · rw [List.drop_append_of_le_length hok.base, hok.delivered, hnext]
    · obtain ⟨old, hbegun, hwritten⟩ := hok.whole hopen
      refine ⟨old, hbegun, ?_⟩
      rw [hwritten, hnext, List.append_assoc]

theorem Flow.reader_step (h : Flow r q) (hfew : r.written.length < 2 ^ 31) (steady : Bool) :
    ∃ q', Flow (r.readerStep steady) q' := by
  have hreader := h.reader
  unfold PipeRun.readerStep
  cases hpc : r.reader with
  | idle => exact ⟨q, h⟩
  | loop n got =>
      rw [hpc] at hreader
      dsimp only
      have hfd : r.reader.fd = 1 := by rw [hpc]; rfl
      have hholds : r.reader.holds = 1 := by rw [hpc]; rfl
      split
      · refine ⟨q, h.read_returns hfd hholds hreader (fun hn hgot => ?_)⟩
        rename_i hle
        rw [hgot] at hle
        exact absurd hle (Nat.not_le_of_lt hn)
      · split
        · rename_i hempty
          split
          · rename_i hgot
            refine ⟨q, h.read_returns hfd hholds hreader (fun _ hnil => ?_)⟩
            rw [hnil] at hgot
            exact absurd hgot (Nat.lt_irrefl 0)
          · rename_i hgot
            refine ⟨q, h.reader_goes hfd.symm hholds.symm ⟨?_, fun _ => h.empty_iff.mp hempty⟩⟩
            rw [List.length_pos_iff, not_not] at hgot
            have hread : (r.reads.map ReadDone.got).flatten ++ got = r.taken := hreader
            rwa [hgot, List.append_nil] at hread
        · rename_i hne
          exact ⟨q, h.reader_goes hfd.symm hholds.symm
            ⟨hreader, fun hq => hne (h.empty_iff.mpr hq)⟩⟩
  | check n =>
      rw [hpc] at hreader
      obtain ⟨hread, hover⟩ := hreader
      dsimp only
      have hfd : r.reader.fd = 1 := by rw [hpc]; rfl
      have hholds : r.reader.holds = 1 := by rw [hpc]; rfl
      split
      · exact ⟨q, h⟩
      · split
        · rename_i hsame
          refine ⟨q, h.read_returns hfd hholds (by rw [List.append_nil, hread]) (fun _ _ => ?_)⟩
          -- only the reader itself still has the pipe
          have hgone : r.writer.holds = 0 := by
            have hdata := h.data
            rw [← hsame, h.rfd, hfd, hholds] at hdata
            omega
          refine ⟨h.empty_iff.mpr (hover hgone), ?_⟩
          rw [h.wfd]
          cases hw : r.writer with
          | gone => rfl
          | _ =>
              rw [hw] at hgone
              cases hgone
        · refine ⟨q, h.reader_goes hfd.symm hholds.symm ?_⟩
          change _ ++ [] = _
          rw [List.append_nil, hread]
  | take n got =>
      rw [hpc] at hreader
      obtain ⟨hread, hq⟩ := hreader
      have hfd : r.reader.fd = 1 := by rw [hpc]; rfl
      have hholds : r.reader.holds = 1 := by rw [hpc]; rfl
      refine ⟨q, h.reader_goes hfd.symm hholds.symm ⟨hread, ?_⟩⟩
      cases q with
      | nil => exact absurd rfl hq
      | cons x q =>
          have hlen := h.lengths
          have hbyte := h.bytes.1
          rw [pbufAt_eq (by rw [h.rpos]; omega), h.rpos, hbyte]
          rfl
  | bump n got b => exact h.taken hfew hpc
  | closing =>
      rw [hpc] at hreader
      have hdata := h.data
      rw [hpc] at hdata
      have hwriter := h.writer
      rw [hpc] at hwriter
      refine ⟨q, { h with
        rfd := h.rfd.trans (by rw [hpc]; rfl)
        data := ?_
        reader := hreader
        writer := hwriter.mono (fun hno => absurd hno (by decide)) }⟩
      change r.data - 1 = 0 + r.writer.holds
      change r.data = 1 + r.writer.holds at hdata
      omega
  | gone => exact ⟨q, h⟩

theorem Flow.writer_step (h : Flow r q) (steady : Bool)
    (hfew : (r.writerStep steady).written.length < 2 ^ 31)
    (hclean : PipeClean r (.writer steady)) : ∃ q', Flow (r.writerStep steady) q' := by
  have hwriter := h.writer
  unfold PipeRun.writerStep at hfew ⊢
  cases hpc : r.writer with
  | idle => exact ⟨q, h⟩
  | loop c =>
      rw [hpc] at hwriter hfew
      dsimp only at hfew ⊢
      have hok : c.Ok r.begun r.written (r.reader.holds = 0) := hwriter
      have hfd : r.writer.fd = 1 := by rw [hpc]; rfl
      have hholds : r.writer.holds = 1 := by rw [hpc]; rfl
      split at hfew
      · rename_i hle
        rw [if_pos hle]
        have hall : c.i = c.data.length := Nat.le_antisymm hok.le hle
        exact ⟨q, h.write_returns hfd hholds hok (Or.inr hall) (fun _ => ⟨hall, hall⟩)⟩
      · rename_i hlt
        rw [if_neg hlt]
        have hfew' : r.written.length < 2 ^ 31 := by
          split at hfew
          · exact hfew
          · exact hfew
        split
        · exact ⟨q, h.writer_goes hfd.symm hholds.symm hok⟩
        · rename_i hroom
          rw [h.full_iff hfew'] at hroom
          exact ⟨q, h.writer_goes hfd.symm hholds.symm
            ⟨hok, Nat.lt_of_not_le hlt, Nat.lt_of_not_le hroom⟩⟩
  | check c =>
      rw [hpc] at hwriter
      dsimp only
      have hok : c.Ok r.begun r.written (r.reader.holds = 0) := hwriter
      have hfd : r.writer.fd = 1 := by rw [hpc]; rfl
      have hholds : r.writer.holds = 1 := by rw [hpc]; rfl
      split
      · exact ⟨q, h⟩
      · split
        · rename_i hsame
          have hgone : r.reader.holds = 0 := by
            have hdata := h.data
            rw [← hsame, h.wfd, hfd, hholds] at hdata
            omega
          refine ⟨q, h.write_returns hfd hholds hok (Or.inl hgone) (fun hres => ?_)⟩
          rcases hres with hres | hres
          · exact absurd rfl hres
          · have hle := hok.le
            rw [hres] at hle ⊢
            exact ⟨Nat.le_zero.mp hle, rfl⟩
        · exact ⟨q, h.writer_goes hfd.symm hholds.symm hok⟩
  | put c =>
      rw [hpc] at hfew
      exact ⟨q, h.stored hfew hpc⟩
  | bump c =>
      rw [hpc] at hfew
      refine ⟨_, h.put ?_ hpc⟩
      rwa [List.length_append, List.length_singleton] at hfew
  | closing =>
      rw [hpc] at hwriter
      have hdata := h.data
      rw [hpc] at hdata
      have hreader := h.reader
      refine ⟨q, { h with
        wfd := h.wfd.trans (by rw [hpc]; rfl)
        data := ?_
        reader := ?_
        writer := hwriter }⟩
      · change r.data - 1 = r.reader.holds + 0
        change r.data = r.reader.holds + 1 at hdata
        omega
      · change r.reader.Ok _ _ _ _
        cases hread : r.reader with
        | check n =>
            rw [hread] at hreader
            exact ⟨hreader.1, fun _ => h.empty_iff.mp (hclean n hpc hread)⟩
        | _ =>
            rw [hread] at hreader
            exact hreader
  | gone => exact ⟨q, h⟩

/-- The reader puts nothing in. -/
theorem readerStep_written (steady : Bool) : (r.readerStep steady).written = r.written := by
  unfold PipeRun.readerStep
  cases r.reader with
  | loop n got =>
      dsimp only
      split
      · rfl
      · split
        · split
          · rfl
          · rfl
        · rfl
  | check n =>
      dsimp only
      split
      · rfl
      · split
        · rfl
        · rfl
  | _ => rfl

/-- What is put in stays. -/
theorem step_written {m : PipeMove} : r.written.length ≤ (r.step m).written.length := by
  cases m with
  | read n =>
      unfold PipeRun.step
      cases r.reader with
      | _ => exact Nat.le_refl _
  | write data =>
      unfold PipeRun.step
      cases r.writer with
      | _ => exact Nat.le_refl _
  | reader steady =>
      change _ ≤ (r.readerStep steady).written.length
      rw [readerStep_written]
  | writer steady =>
      change _ ≤ (r.writerStep steady).written.length
      unfold PipeRun.writerStep
      cases r.writer with
      | loop c =>
          dsimp only
          split
          · exact Nat.le_refl _
          · split
            · exact Nat.le_refl _
            · exact Nat.le_refl _
      | check c =>
          dsimp only
          split
          · exact Nat.le_refl _
          · split
            · exact Nat.le_refl _
            · exact Nat.le_refl _
      | bump c =>
          dsimp only
          rw [List.length_append]
          exact Nat.le_add_right _ _
      | _ => exact Nat.le_refl _
  | closeReader =>
      unfold PipeRun.step
      cases r.reader with
      | _ => exact Nat.le_refl _
  | closeWriter =>
      unfold PipeRun.step
      cases r.writer with
      | _ => exact Nat.le_refl _

/-- What the reads have returned so far was taken. -/
theorem Reader.Ok.prefix {pc : Reader} {read taken : List U8} {ended : Prop}
    (h : pc.Ok read taken q ended) : read <+: taken := by
  cases pc with
  | idle => exact h ▸ List.prefix_refl read
  | loop n got => exact ⟨got, h⟩
  | check n => exact h.1 ▸ List.prefix_refl read
  | take n got => exact ⟨got, h.1⟩
  | bump n got b => exact ⟨got, h.1⟩
  | closing => exact h
  | gone => exact h

/-- The reader gives up its descriptor, wherever it is. -/
theorem Flow.close_reader (h : Flow r q) (hfd : r.reader.fd = 1) (hholds : r.reader.holds = 1) :
    Flow { r with rfd := r.rfd - 1, reader := .closing } q :=
  { h with
    rfd := by
      change r.rfd - 1 = 0
      rw [h.rfd, hfd]
    data := by
      have hdata := h.data
      rwa [hholds] at hdata
    reader := h.reader.prefix
    writer := by
      have hwriter := h.writer
      rwa [hholds] at hwriter }

/-- So does the writer. -/
theorem Flow.close_writer (h : Flow r q) (hfd : r.writer.fd = 1) (hholds : r.writer.holds = 1) :
    Flow { r with wfd := r.wfd - 1, writer := .closing } q :=
  { h with
    wfd := by
      change r.wfd - 1 = 0
      rw [h.wfd, hfd]
    data := by
      have hdata := h.data
      rwa [hholds] at hdata
    reader := by
      have hreader := h.reader
      rwa [hholds] at hreader
    writer := h.live }

/-- A write begins. -/
theorem Flow.begin_write (h : Flow r q) (data : List U8) (hpc : r.writer = .idle) :
    Flow { r with
      writer := .loop ⟨data, 0, r.written.length⟩
      begun := r.begun ++ [data] } q := by
  have hwriter := h.writer
  rw [hpc] at hwriter
  refine { h with
    wfd := h.wfd.trans (by rw [hpc]; rfl)
    data := h.data.trans (by rw [hpc]; rfl)
    reader := ?_
    writer := ⟨Nat.zero_le _, Nat.le_refl _, ?_, fun hopen => ⟨r.begun, rfl, ?_⟩⟩
    begun := ?_ }
  · have hreader := h.reader
    rwa [hpc] at hreader
  · exact List.drop_length
  · exact (hwriter hopen).trans (List.append_nil _).symm
  · refine h.begun.trans ?_
    rw [List.flatten_append]
    exact List.prefix_append _ _

theorem Flow.step (h : Flow r q) {m : PipeMove} (hfew : (r.step m).written.length < 2 ^ 31)
    (hclean : PipeClean r m) : ∃ q', Flow (r.step m) q' := by
  have hreader := h.reader
  cases m with
  | read n =>
      unfold PipeRun.step
      cases hpc : r.reader with
      | idle =>
          rw [hpc] at hreader
          refine ⟨q, h.reader_goes (by rw [hpc]; rfl) (by rw [hpc]; rfl) ?_⟩
          exact (List.append_nil _).trans hreader
      | _ => exact ⟨q, h⟩
  | write data =>
      unfold PipeRun.step
      cases hpc : r.writer with
      | idle => exact ⟨q, h.begin_write data hpc⟩
      | _ => exact ⟨q, h⟩
  | reader steady =>
      refine h.reader_step ?_ steady
      rwa [PipeRun.step, readerStep_written] at hfew
  | writer steady => exact h.writer_step steady hfew hclean
  | closeReader =>
      unfold PipeRun.step
      cases hpc : r.reader with
      | closing => exact ⟨q, h⟩
      | gone => exact ⟨q, h⟩
      | _ => exact ⟨q, h.close_reader (by rw [hpc]; rfl) (by rw [hpc]; rfl)⟩
  | closeWriter =>
      unfold PipeRun.step
      cases hpc : r.writer with
      | closing => exact ⟨q, h⟩
      | gone => exact ⟨q, h⟩
      | _ => exact ⟨q, h.close_writer (by rw [hpc]; rfl) (by rw [hpc]; rfl)⟩

theorem Flow.reached (h : PipeReached PipeClean r) (hfew : r.written.length < 2 ^ 31) :
    ∃ q, Flow r q := by
  induction h with
  | start => exact ⟨[], Flow.start⟩
  | step _ hclean ih =>
      obtain ⟨q, hq⟩ := ih (Nat.lt_of_le_of_lt step_written hfew)
      exact hq.step hfew hclean

theorem Flow.sound (h : Flow r q) (hfew : r.written.length < 2 ^ 31) : PipeSound r := by
  have hlen := h.lengths
  have hroom := h.room
  have hr : r.rpos.toInt = r.taken.length := by
    rw [BitVec.toInt_eq_toNat_of_lt (by rw [h.rpos]; omega), h.rpos]
  have hw : r.wpos.toInt = r.written.length := by
    rw [BitVec.toInt_eq_toNat_of_lt (by rw [h.wpos]; omega), h.wpos]
  refine ⟨?_, ?_, h.reader.prefix.trans h.begun, h.writes, h.reads⟩
  · omega
  · omega

end Moves

end Jos

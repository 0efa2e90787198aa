import Jos.PipeBytes

/-!
# The positions of a pipe that lives long

`p_rpos` and `p_wpos` are signed and never reduced.  From 2^31 on they are negative,
and so is the remainder that `devpipe_read` and `devpipe_write` take for an index,
except at every 32nd position.  The first access outside the buffer is the store of
the byte after the first 2^31 + 1 ones; all that is done before is right.
-/

namespace Jos

open Bytes Ring

/-- `pos % PIPEBUFSIZ`, for a signed position. -/
def pbufIndex (pos : U32) : Int := (pos.srem 32#32).toInt

/-- A move reads or writes `p->p_buf[i]`. -/
inductive PipeAccess (r : PipeRun) : PipeMove → Int → Prop where
  | read {n : Nat} {got : List U8} {steady : Bool} : r.reader = .take n got →
      PipeAccess r (.reader steady) (pbufIndex r.rpos)
  | write {c : Writing} {steady : Bool} : r.writer = .put c →
      PipeAccess r (.writer steady) (pbufIndex r.wpos)

/-- Every access of the move is in the buffer. -/
def PipeInside (r : PipeRun) (m : PipeMove) : Prop :=
  ∀ i, PipeAccess r m i → 0 ≤ i ∧ i < pipebufsiz

/-- The bytes that have been put and not taken. -/
def PipeRun.unread (r : PipeRun) : Nat := r.written.length - r.taken.length

/-- The tests are right, and the bytes come out in order. -/
structure PipeExact (r : PipeRun) : Prop where
  full : r.rpos + BitVec.ofNat 32 pipebufsiz ≤ r.wpos ↔ r.unread = pipebufsiz
  empty : r.rpos = r.wpos ↔ r.unread = 0
  order : r.taken <+: r.written

/-- When a byte is stored, at most 2^31 bytes have been put in before. -/
def PipeYoung (r : PipeRun) : PipeMove → Prop
  | .writer _ => ∀ c, r.writer = .put c → r.written.length ≤ 2 ^ 31
  | _ => True

/-! ## The invariant -/

/-- What a reader relies on, with the bytes `q` in the pipe. -/
def Reader.Holds (q : List U8) : Reader → Prop
  | take _ _ => q ≠ []
  | bump _ _ b => q.head? = some b
  | _ => True

/-- What a writer relies on, when the byte behind the others is `cell` and `n` bytes have
been put in. -/
def Writer.Holds (q : List U8) (cell : U8) (n : Nat) : Writer → Prop
  | put _ => q.length < pipebufsiz
  | bump c => q.length < pipebufsiz ∧ n ≤ 2 ^ 31 ∧ cell = c.data.getD c.i 0#8
  | _ => True

/-- The bytes `q` are in the pipe, and the positions count those before them. -/
structure Stream (r : PipeRun) (q : List U8) : Prop where
  written : r.written = r.taken ++ q
  room : q.length ≤ pipebufsiz
  few : r.written.length ≤ 2 ^ 31 + 1
  rpos : r.rpos.toNat = r.taken.length
  wpos : r.wpos.toNat = r.written.length
  bytes : Span (fun c x => r.page (pbufVa + c) = x) pipebufsiz r.taken.length q
  reader : r.reader.Holds q
  writer : r.writer.Holds q (r.page (pbufVa + r.written.length % pipebufsiz)) r.written.length

section Positions

variable {r r' : PipeRun} {q : List U8} {pos : U32} {n : Nat} {got : List U8} {c : Writing}
  {b : U8}

/-- The index of a position up to 2^31. -/
theorem pbufIndex_eq (h : pos.toNat ≤ 2 ^ 31) :
    pbufIndex pos = (pos.toNat % pipebufsiz : Nat) := srem_pipebufsiz h

/-- The index of the next position is negative. -/
theorem pbufIndex_neg (h : pos.toNat = 2 ^ 31 + 1) : pbufIndex pos = -31 := by
  obtain rfl : pos = 0x80000001#32 := BitVec.eq_of_toNat_eq h
  decide

theorem Stream.page (h : Stream r q) : PipePage r.page r.taken r.written q :=
  ⟨h.written, h.room, h.rpos, h.wpos, h.bytes⟩

theorem Stream.lengths (h : Stream r q) : r.written.length = r.taken.length + q.length :=
  h.page.lengths

theorem Stream.unread (h : Stream r q) : r.unread = q.length := by
  unfold PipeRun.unread
  rw [h.lengths]
  omega

theorem Stream.empty_iff (h : Stream r q) : r.rpos = r.wpos ↔ q = [] := h.page.empty_iff

theorem Stream.full_iff (h : Stream r q) :
    r.rpos + BitVec.ofNat 32 pipebufsiz ≤ r.wpos ↔ pipebufsiz ≤ q.length :=
  h.page.full_iff h.few

/-- The positions say what is in the pipe. -/
theorem Stream.exact (h : Stream r q) : PipeExact r where
  full := by
    have hroom := h.room
    rw [h.full_iff, h.unread]
    omega
  empty := by rw [h.empty_iff, h.unread, List.length_eq_zero_iff]
  order := by
    rw [h.written]
    exact List.prefix_append _ _

/-- An access is in the buffer if and only if not more than 2^31 bytes came before. -/
theorem Stream.inside_iff (h : Stream r q) (m : PipeMove) : PipeInside r m ↔ PipeYoung r m := by
  have hlen := h.lengths
  have hfew := h.few
  have hbuf : ∀ k : Nat, 0 ≤ ((k % pipebufsiz : Nat) : Int) ∧
      ((k % pipebufsiz : Nat) : Int) < pipebufsiz := by
    intro k
    have hlt := Nat.mod_lt k (show 0 < pipebufsiz by decide)
    omega
  constructor
  · intro hin
    cases m with
    | writer steady =>
        intro c hpc
        by_contra hmany
        obtain ⟨hpos, -⟩ := hin _ (.write hpc)
        rw [pbufIndex_neg (by rw [h.wpos]; omega)] at hpos
        omega
    | _ => trivial
  · intro hyoung i haccess
    cases haccess with
    | read hpc =>
        have hreader := h.reader
        rw [hpc] at hreader
        have hpos := List.length_pos_iff.mpr hreader
        rw [pbufIndex_eq (by rw [h.rpos]; omega)]
        exact hbuf _
    | write hpc =>
        have hle : r.written.length ≤ 2 ^ 31 := hyoung _ hpc
        rw [pbufIndex_eq (by rw [h.wpos]; exact hle)]
        exact hbuf _

/-! ## The moves -/

theorem Stream.start : Stream .start [] where
  written := rfl
  room := Nat.zero_le _
  few := Nat.zero_le _
  rpos := rfl
  wpos := rfl
  bytes := trivial
  reader := trivial
  writer := trivial

/-- A move that leaves the page, the bytes and their order alone. -/
theorem Stream.goes (h : Stream r q) (hpage : r'.page = r.page) (htaken : r'.taken = r.taken)
    (hwritten : r'.written = r.written) (hreader : r'.reader.Holds q)
    (hwriter : r'.writer.Holds q (r.page (pbufVa + r.written.length % pipebufsiz))
      r.written.length) : Stream r' q where
  written := by rw [hwritten, htaken, h.written]
  room := h.room
  few := by rw [hwritten]; exact h.few
  rpos := by rw [PipeRun.rpos, hpage, htaken]; exact h.rpos
  wpos := by rw [PipeRun.wpos, hpage, hwritten]; exact h.wpos
  bytes := by rw [hpage, htaken]; exact h.bytes
  reader := hreader
  writer := by rw [hpage, hwritten]; exact hwriter

/-- A byte leaves the pipe. -/
theorem Stream.taken (h : Stream r q) (hpc : r.reader = .bump n got b) :
    ∃ q', Stream { r with
      page := setWord r.page rposVa (r.rpos + 1)
      reader := .loop n (got ++ [b])
      taken := r.taken ++ [b] } q' := by
  have hreader := h.reader
  rw [hpc] at hreader
  have hlen := h.lengths
  have hfew := h.few
  cases q with
  | nil => cases hreader
  | cons x q =>
      obtain rfl : x = b := Option.some.inj hreader
      rw [List.length_cons] at hlen
      have hpage := h.page.take (by omega)
      refine ⟨q, hpage.eq_append, hpage.room, h.few, hpage.rpos, hpage.wpos, hpage.bytes, trivial,
        ?_⟩
      have hwriter := h.writer
      have hroom : q.length < pipebufsiz := h.room
      change r.writer.Holds q (setWord r.page rposVa _ _) _
      rw [setWord_pbuf (by decide)]
      cases hw : r.writer with
      | put c => exact hroom
      | bump c =>
          rw [hw] at hwriter
          exact ⟨hroom, hwriter.2⟩
      | _ => trivial

/-- A byte is stored behind the others. -/
theorem Stream.stored (h : Stream r q) (hyoung : r.written.length ≤ 2 ^ 31)
    (hpc : r.writer = .put c) :
    Stream { r with
      page := Function.update r.page (pbufAt r.wpos) (c.data.getD c.i 0#8)
      writer := .bump c } q := by
  have hroom := h.writer
  rw [hpc] at hroom
  have hroom : q.length < pipebufsiz := hroom
  obtain ⟨hpage, hcell⟩ := h.page.store (b := c.data.getD c.i 0#8) hyoung hroom
  exact ⟨hpage.eq_append, hpage.room, h.few, hpage.rpos, hpage.wpos, hpage.bytes, h.reader, hroom,
    hyoung, hcell⟩

/-- A byte comes into the pipe. -/
theorem Stream.put (h : Stream r q) (hpc : r.writer = .bump c) :
    Stream { r with
      page := setWord r.page wposVa (r.wpos + 1)
      writer := .loop { c with i := c.i + 1 }
      written := r.written ++ [c.data.getD c.i 0#8] } (q ++ [c.data.getD c.i 0#8]) := by
  have hwriter := h.writer
  rw [hpc] at hwriter
  obtain ⟨hroom, hyoung, hcell⟩ := hwriter
  have hpage := h.page.put hyoung hroom hcell
  refine ⟨hpage.eq_append, hpage.room, ?_, hpage.rpos, hpage.wpos, hpage.bytes, ?_, trivial⟩
  · rw [List.length_append]
    exact Nat.succ_le_succ hyoung
  · have hreader := h.reader
    change r.reader.Holds _
    cases hr : r.reader with
    | take n got => exact List.append_ne_nil_of_right_ne_nil _ (List.cons_ne_nil _ _)
    | bump n got b =>
        rw [hr] at hreader
        cases q with
        | nil => cases hreader
        | cons x q => exact hreader
    | _ => trivial

theorem Stream.reader_step (h : Stream r q) (steady : Bool) :
    ∃ q', Stream (r.readerStep steady) q' := by
  have hwriter := h.writer
  unfold PipeRun.readerStep
  cases hpc : r.reader with
  | idle => exact ⟨q, h⟩
  | loop n got =>
      dsimp only
      split
      · exact ⟨q, h.goes rfl rfl rfl trivial hwriter⟩
      · split
        · split
          · exact ⟨q, h.goes rfl rfl rfl trivial hwriter⟩
          · exact ⟨q, h.goes rfl rfl rfl trivial hwriter⟩
        · rename_i hne
          exact ⟨q, h.goes rfl rfl rfl (fun hq => hne (h.empty_iff.mpr hq)) hwriter⟩
  | check n =>
      dsimp only
      split
      · exact ⟨q, h⟩
      · split
        · exact ⟨q, h.goes rfl rfl rfl trivial hwriter⟩
        · exact ⟨q, h.goes rfl rfl rfl trivial hwriter⟩
  | take n got =>
      have hq := h.reader
      rw [hpc] at hq
      refine ⟨q, h.goes rfl rfl rfl ?_ hwriter⟩
      cases q with
      | nil => exact absurd rfl hq
      | cons x q =>
          have hlen := h.lengths
          have hfew := h.few
          have hbyte := h.bytes.1
          rw [List.length_cons] at hlen
          change some x = some (r.page (pbufAt r.rpos))
          rw [pbufAt_eq (by rw [h.rpos]; omega), h.rpos, hbyte]
  | bump n got b => exact h.taken hpc
  | closing => exact ⟨q, h.goes rfl rfl rfl trivial hwriter⟩
  | gone => exact ⟨q, h⟩

theorem Stream.writer_step (h : Stream r q) {steady : Bool}
    (hyoung : PipeYoung r (.writer steady)) : ∃ q', Stream (r.writerStep steady) q' := by
  have hreader := h.reader
  unfold PipeRun.writerStep
  cases hpc : r.writer with
  | idle => exact ⟨q, h⟩
  | loop c =>
      dsimp only
      split
      · exact ⟨q, h.goes rfl rfl rfl hreader trivial⟩
      · split
        · exact ⟨q, h.goes rfl rfl rfl hreader trivial⟩
        · rename_i hroom
          rw [h.full_iff] at hroom
          exact ⟨q, h.goes rfl rfl rfl hreader (Nat.lt_of_not_le hroom)⟩
  | check c =>
      dsimp only
      split
      · exact ⟨q, h⟩
      · split
        · exact ⟨q, h.goes rfl rfl rfl hreader trivial⟩
        · exact ⟨q, h.goes rfl rfl rfl hreader trivial⟩
  | put c => exact ⟨q, h.stored (hyoung c hpc) hpc⟩
  | bump c => exact ⟨_, h.put hpc⟩
  | closing => exact ⟨q, h.goes rfl rfl rfl hreader trivial⟩
  | gone => exact ⟨q, h⟩

theorem Stream.step (h : Stream r q) {m : PipeMove} (hyoung : PipeYoung r m) :
    ∃ q', Stream (r.step m) q' := by
  have hreader := h.reader
  have hwriter := h.writer
  cases m with
  | read n =>
      unfold PipeRun.step
      cases hpc : r.reader with
      | idle => exact ⟨q, h.goes rfl rfl rfl trivial hwriter⟩
      | _ => exact ⟨q, h⟩
  | write data =>
      unfold PipeRun.step
      cases hpc : r.writer with
      | idle => exact ⟨q, h.goes rfl rfl rfl hreader trivial⟩
      | _ => exact ⟨q, h⟩
  | reader steady => exact h.reader_step steady
  | writer steady => exact h.writer_step hyoung
  | closeReader =>
      unfold PipeRun.step
      cases hpc : r.reader with
      | closing => exact ⟨q, h⟩
      | gone => exact ⟨q, h⟩
      | _ => exact ⟨q, h.goes rfl rfl rfl trivial hwriter⟩
  | closeWriter =>
      unfold PipeRun.step
      cases hpc : r.writer with
      | closing => exact ⟨q, h⟩
      | gone => exact ⟨q, h⟩
      | _ => exact ⟨q, h.goes rfl rfl rfl hreader trivial⟩

theorem Stream.reached (h : PipeReached PipeYoung r) : ∃ q, Stream r q := by
  induction h with
  | start => exact ⟨[], Stream.start⟩
  | step _ hyoung ih =>
      obtain ⟨q, hq⟩ := ih
      exact hq.step hyoung

/-- In every run in which no byte is stored behind the first 2^31 + 1 ones, the tests are
right and the bytes are in order; and the next move keeps to the buffer if and only if
it does not store such a byte. -/
theorem pipe_positions (h : PipeReached PipeYoung r) :
    PipeExact r ∧ ∀ m, PipeInside r m ↔ PipeYoung r m := by
  obtain ⟨q, hq⟩ := Stream.reached h
  exact ⟨hq.exact, hq.inside_iff⟩

/-- A byte is about to be stored. -/
theorem pipe_positions_written :
    PipeExact ((PipeRun.start.step (.write [7#8])).step (.writer true)) ∧
      ∀ m, PipeInside ((PipeRun.start.step (.write [7#8])).step (.writer true)) m ↔
        PipeYoung ((PipeRun.start.step (.write [7#8])).step (.writer true)) m :=
  pipe_positions (.step (.step .start trivial) (fun c hc => by cases hc))

/-! ## A run of more than 2^31 bytes -/

/-- One write and one read of `N` bytes each have both done `k` of them. -/
structure Turning (N k : Nat) (r : PipeRun) : Prop where
  reader : ∃ got, r.reader = .loop N got ∧ got.length = k
  writer : ∃ c, r.writer = .loop c ∧ c.data.length = N ∧ c.i = k
  rpos : r.rpos.toNat = k
  wpos : r.wpos.toNat = k

variable {N k : Nat}

/-- The writer finds room. -/
theorem Turning.not_full (h : Turning N k r) (hk : k ≤ 2 ^ 31 + 1) :
    ¬ r.rpos + BitVec.ofNat 32 pipebufsiz ≤ r.wpos := by
  have hr := h.rpos
  have hw := h.wpos
  unfold pipebufsiz
  rw [BitVec.le_def, BitVec.toNat_add, hr, hw, BitVec.toNat_ofNat]
  omega

/-- The writer goes on to store its next byte. -/
theorem Turning.goes (h : Turning N k r) (hk : k ≤ 2 ^ 31 + 1) (hN : k < N) :
    ∃ c, r.writer = .loop c ∧ c.data.length = N ∧ c.i = k ∧
      r.step (.writer true) = { r with writer := .put c } := by
  obtain ⟨c, hpc, hlen, hi⟩ := h.writer
  refine ⟨c, hpc, hlen, hi, ?_⟩
  change r.writerStep true = _
  unfold PipeRun.writerStep
  rw [hpc]
  dsimp only
  rw [if_neg (by omega), if_neg (h.not_full hk)]

theorem step_put {steady : Bool} (hpc : r.writer = .put c) :
    r.step (.writer steady) = { r with
      page := Function.update r.page (pbufAt r.wpos) (c.data.getD c.i 0#8)
      writer := .bump c } := by
  change r.writerStep steady = _
  unfold PipeRun.writerStep
  rw [hpc]

theorem step_bump {steady : Bool} (hpc : r.writer = .bump c) :
    r.step (.writer steady) = { r with
      page := setWord r.page wposVa (r.wpos + 1)
      writer := .loop { c with i := c.i + 1 }
      written := r.written ++ [c.data.getD c.i 0#8] } := by
  change r.writerStep steady = _
  unfold PipeRun.writerStep
  rw [hpc]

theorem step_find {steady : Bool} (hpc : r.reader = .loop n got) (hn : got.length < n)
    (hne : r.rpos ≠ r.wpos) : r.step (.reader steady) = { r with reader := .take n got } := by
  change r.readerStep steady = _
  unfold PipeRun.readerStep
  rw [hpc]
  dsimp only
  rw [if_neg (by omega), if_neg hne]

theorem step_take {steady : Bool} (hpc : r.reader = .take n got) :
    r.step (.reader steady) = { r with
      reader := .bump n got (r.page (pbufAt r.rpos)) } := by
  change r.readerStep steady = _
  unfold PipeRun.readerStep
  rw [hpc]

theorem step_count {steady : Bool} (hpc : r.reader = .bump n got b) :
    r.step (.reader steady) = { r with
      page := setWord r.page rposVa (r.rpos + 1)
      reader := .loop n (got ++ [b])
      taken := r.taken ++ [b] } := by
  change r.readerStep steady = _
  unfold PipeRun.readerStep
  rw [hpc]

/-- A byte is written and read. -/
theorem Turning.next (h : Turning N k r) (hk : k ≤ 2 ^ 31) (hN : k < N) :
    ∃ ms : List PipeMove, Turning N (k + 1) (ms.foldl PipeRun.step r) := by
  obtain ⟨c, hpc, hlen, hi, hput⟩ := h.goes (by omega) hN
  obtain ⟨got, hpcr, hgot⟩ := h.reader
  have hrpos := h.rpos
  have hwpos := h.wpos
  have hfar : pbufVa ≤ pbufAt r.wpos := by
    rw [pbufAt_eq (by rw [hwpos]; exact hk)]
    exact Nat.le_add_right _ _
  generalize hx : c.data.getD c.i 0#8 = x
  generalize hpage₁ : Function.update r.page (pbufAt r.wpos) x = page₁
  have hword : ∀ a, a + 4 ≤ pbufVa → word page₁ a = word r.page a := by
    intro a ha
    rw [← hpage₁]
    exact word_update (Nat.le_trans ha hfar)
  have hr₁ : word page₁ rposVa = r.rpos := hword rposVa (by decide)
  have hw₁ : word page₁ wposVa = r.wpos := hword wposVa (by decide)
  generalize hpage₂ : setWord page₁ wposVa (r.wpos + 1) = page₂
  have hr₂ : word page₂ rposVa = r.rpos := by
    rw [← hpage₂, word_setWord_of_apart (by decide), hr₁]
  have hw₂ : word page₂ wposVa = r.wpos + 1 := by
    rw [← hpage₂, word_setWord_self]
  -- the writer stores the byte and counts it
  have hstored : ({ r with writer := .put c } : PipeRun).step (.writer true) =
      { r with page := page₁, writer := .bump c } := by
    rw [step_put rfl, hx]
    change PipeRun.mk (Function.update r.page (pbufAt r.wpos) x) _ _ _ _ _ _ _ _ _ _ = _
    rw [hpage₁]
  have hbumped : ({ r with page := page₁, writer := .bump c } : PipeRun).step (.writer true) =
      { r with
        page := page₂
        writer := .loop { c with i := c.i + 1 }
        written := r.written ++ [x] } := by
    rw [step_bump rfl, hx]
    change PipeRun.mk (setWord page₁ wposVa (word page₁ wposVa + 1)) _ _ _ _ _ _ _ _ _ _ = _
    rw [hw₁, hpage₂]
  -- the reader takes it and counts it
  generalize hb : page₂ (pbufAt r.rpos) = b
  generalize hs : ({ r with
    page := page₂
    writer := .loop { c with i := c.i + 1 }
    written := r.written ++ [x] } : PipeRun) = s at hbumped
  have hpage : s.page = page₂ := by rw [← hs]
  have hrs : s.rpos = r.rpos := by rw [PipeRun.rpos, hpage, hr₂]
  have hws : s.wpos = r.wpos + 1 := by rw [PipeRun.wpos, hpage, hw₂]
  have hne : s.rpos ≠ s.wpos := by
    intro heq
    have hsucc := toNat_succ (show r.wpos.toNat ≤ 2 ^ 31 by omega)
    rw [← hws, ← heq, hrs] at hsucc
    omega
  have hfound : s.step (.reader true) = { s with reader := .take N got } :=
    step_find (by rw [← hs]; exact hpcr) (by omega) hne
  have htaken : ({ s with reader := .take N got } : PipeRun).step (.reader true) =
      { s with reader := .bump N got b } := by
    rw [step_take rfl]
    change PipeRun.mk s.page _ _ _ (.bump N got (s.page (pbufAt s.rpos))) _ _ _ _ _ _ = _
    rw [hrs, hpage, hb]
  have hcounted : ({ s with reader := .bump N got b } : PipeRun).step (.reader true) =
      { s with
        page := setWord page₂ rposVa (r.rpos + 1)
        reader := .loop N (got ++ [b])
        taken := s.taken ++ [b] } := by
    rw [step_count rfl]
    change PipeRun.mk (setWord s.page rposVa (s.rpos + 1)) _ _ _ _ _ _ _ _ _ _ = _
    rw [hrs, hpage]
  refine ⟨[.writer true, .writer true, .writer true, .reader true, .reader true,
    .reader true], ?_⟩
  simp only [List.foldl_cons, List.foldl_nil]
  rw [hput, hstored, hbumped, hfound, htaken, hcounted]
  refine ⟨⟨_, rfl, by simp [hgot]⟩,
    ⟨{ c with i := c.i + 1 }, by rw [← hs], hlen, by simp [hi]⟩, ?_, ?_⟩
  · change (word (setWord page₂ rposVa (r.rpos + 1)) rposVa).toNat = _
    rw [word_setWord_self, toNat_succ (by omega), hrpos]
  · change (word (setWord page₂ rposVa (r.rpos + 1)) wposVa).toNat = _
    rw [word_setWord_of_apart (by decide), hw₂, toNat_succ (by omega), hwpos]

theorem PipeReached.moves {ok : PipeRun → PipeMove → Prop} (h : PipeReached ok r)
    (hok : ∀ r m, ok r m) (ms : List PipeMove) : PipeReached ok (ms.foldl PipeRun.step r) := by
  induction ms generalizing r with
  | nil => exact h
  | cons m ms ih => exact ih (h.step (hok r m))

/-- All of `N` bytes can pass through the pipe, up to 2^31 + 1. -/
theorem exists_turning (hk : k ≤ 2 ^ 31 + 1) (hN : k ≤ N) :
    ∃ r, PipeReached (fun _ _ => True) r ∧ Turning N k r := by
  induction k with
  | zero =>
      refine ⟨(PipeRun.start.step (.write (List.replicate N 0#8))).step (.read N),
        .step (.step .start trivial) trivial, ⟨[], rfl, rfl⟩, ⟨_, rfl, ?_, rfl⟩, rfl, rfl⟩
      exact List.length_replicate
  | succ k ih =>
      obtain ⟨r, hr, hturning⟩ := ih (by omega) (by omega)
      obtain ⟨ms, hnext⟩ := hturning.next (by omega) (by omega)
      exact ⟨_, hr.moves (fun _ _ => trivial) ms, hnext⟩

end Positions

/-- When 2^31 + 1 bytes have gone through the pipe, the next one is stored 31 bytes
before the buffer. -/
theorem pipe_store_before : ∃ r m, PipeReached (fun _ _ => True) r ∧ PipeAccess r m (-31) := by
  obtain ⟨r, hr, hturning⟩ := exists_turning (N := 2 ^ 31 + 2) (Nat.le_refl (2 ^ 31 + 1))
    (Nat.le_succ _)
  obtain ⟨c, -, -, -, hput⟩ := hturning.goes (Nat.le_refl _) (Nat.lt_succ_self _)
  have hindex : pbufIndex (r.step (.writer true)).wpos = -31 := by
    rw [hput]
    exact pbufIndex_neg hturning.wpos
  refine ⟨r.step (.writer true), .writer true, hr.step trivial, ?_⟩
  have haccess : PipeAccess (r.step (.writer true)) (.writer true)
      (pbufIndex (r.step (.writer true)).wpos) := .write (by rw [hput])
  rw [hindex] at haccess
  exact haccess

end Jos

import Jos.Lib.Bytes
import Jos.Lib.Ring
import Jos.Mmu

/-!
# The bytes of a pipe

One environment reads a pipe and another one writes it, and nothing but their steps
keeps them apart: a test of the positions, a byte loaded or stored, a position
incremented.  `devpipe_read` and `devpipe_write` are given step by step, and so are
the two steps in which an environment gives up its end.

`env_runs` may have changed while `_pipeisclosed` compares the counts of the pages;
then it compares them again.
-/

namespace Jos

open Bytes Ring

/-- `PIPEBUFSIZ`. -/
def pipebufsiz : Nat := 32

/-- `&p->p_rpos`, in the page of the pipe. -/
def rposVa : Nat := 0

/-- `&p->p_wpos`. -/
def wposVa : Nat := 4

/-- `p->p_buf`. -/
def pbufVa : Nat := 8

/-- `&p->p_buf[pos % PIPEBUFSIZ]`; the remainder of a negative position is negative. -/
def pbufAt (pos : U32) : Nat := (pbufVa + (pos.srem 32#32).toInt).toNat

/-! ## Steps -/

/-- Where `devpipe_read(fd, buf, n)` is; the bytes `got` are in the buffer. -/
inductive Reader where
  | idle
  | loop (n : Nat) (got : List U8)
  | check (n : Nat)
  | take (n : Nat) (got : List U8)
  | bump (n : Nat) (got : List U8) (b : U8)
  /-- The page of the descriptor is unmapped. -/
  | closing
  | gone

/-- A call of `devpipe_write`, its index, and how much had been written before it. -/
structure Writing where
  data : List U8
  i : Nat
  base : Nat

/-- Where `devpipe_write` is. -/
inductive Writer where
  | idle
  | loop (c : Writing)
  | check (c : Writing)
  | put (c : Writing)
  | bump (c : Writing)
  | closing
  | gone

/-- A read that returned, and whether the pipe was empty and its writers gone. -/
structure ReadDone where
  n : Nat
  got : List U8
  ended : Bool

/-- A write that returned, and the bytes that came into the pipe meanwhile. -/
structure WriteDone where
  data : List U8
  delivered : List U8
  result : Nat

/-- The page of the pipe, the references to the pages of its two descriptors and to
itself, the two environments, the bytes that were taken and put, and the calls. -/
structure PipeRun where
  page : Bytes.Memory
  rfd : Nat
  wfd : Nat
  data : Nat
  reader : Reader
  writer : Writer
  taken : List U8
  written : List U8
  reads : List ReadDone
  begun : List (List U8)
  writes : List WriteDone

/-- What happens next; `steady` if `env_runs` is the same before and after the counts
are read. -/
inductive PipeMove where
  | read (n : Nat)
  | write (data : List U8)
  | reader (steady : Bool)
  | writer (steady : Bool)
  | closeReader
  | closeWriter

namespace PipeRun

/-- `p->p_rpos`. -/
def rpos (r : PipeRun) : U32 := word r.page rposVa

/-- `p->p_wpos`. -/
def wpos (r : PipeRun) : U32 := word r.page wposVa

/-- The pipe after `pipe()`, with one end in each of two environments. -/
def start : PipeRun where
  page := fun _ => 0#8
  rfd := 1
  wfd := 1
  data := 2
  reader := .idle
  writer := .idle
  taken := []
  written := []
  reads := []
  begun := []
  writes := []

/-- `devpipe_read` returns. -/
def readReturns (r : PipeRun) (n : Nat) (got : List U8) : PipeRun :=
  { r with
    reader := .idle
    reads := r.reads ++ [⟨n, got, decide (r.rpos = r.wpos ∧ r.wfd = 0)⟩] }

/-- `devpipe_write` returns. -/
def writeReturns (r : PipeRun) (c : Writing) (result : Nat) : PipeRun :=
  { r with
    writer := .idle
    writes := r.writes ++ [⟨c.data, r.written.drop c.base, result⟩] }

/-- The next step of `devpipe_read`. -/
def readerStep (r : PipeRun) (steady : Bool) : PipeRun :=
  match r.reader with
  | .idle => r
  | .loop n got =>
      if n ≤ got.length then r.readReturns n got
      else if r.rpos = r.wpos then
        if 0 < got.length then r.readReturns n got
        else { r with reader := .check n }
      else { r with reader := .take n got }
  | .check n =>
      if steady = false then r
      else if r.rfd = r.data then r.readReturns n []
      else { r with reader := .loop n [] }
  | .take n got => { r with reader := .bump n got (r.page (pbufAt r.rpos)) }
  | .bump n got b =>
      { r with
        page := setWord r.page rposVa (r.rpos + 1)
        reader := .loop n (got ++ [b])
        taken := r.taken ++ [b] }
  | .closing => { r with data := r.data - 1, reader := .gone }
  | .gone => r

/-- The next step of `devpipe_write`; `p_rpos + sizeof(p_buf)` is unsigned. -/
def writerStep (r : PipeRun) (steady : Bool) : PipeRun :=
  match r.writer with
  | .idle => r
  | .loop c =>
      if c.data.length ≤ c.i then r.writeReturns c c.i
      else if r.rpos + BitVec.ofNat 32 pipebufsiz ≤ r.wpos then { r with writer := .check c }
      else { r with writer := .put c }
  | .check c =>
      if steady = false then r
      else if r.wfd = r.data then r.writeReturns c 0
      else { r with writer := .loop c }
  | .put c =>
      { r with
        page := Function.update r.page (pbufAt r.wpos) (c.data.getD c.i 0#8)
        writer := .bump c }
  | .bump c =>
      { r with
        page := setWord r.page wposVa (r.wpos + 1)
        writer := .loop { c with i := c.i + 1 }
        written := r.written ++ [c.data.getD c.i 0#8] }
  | .closing => { r with data := r.data - 1, writer := .gone }
  | .gone => r

def step (r : PipeRun) : PipeMove → PipeRun
  | .read n =>
      match r.reader with
      | .idle => { r with reader := .loop n [] }
      | _ => r
  | .write data =>
      match r.writer with
      | .idle =>
          { r with
            writer := .loop ⟨data, 0, r.written.length⟩
            begun := r.begun ++ [data] }
      | _ => r
  | .reader steady => r.readerStep steady
  | .writer steady => r.writerStep steady
  | .closeReader =>
      match r.reader with
      | .closing => r
      | .gone => r
      | _ => { r with rfd := r.rfd - 1, reader := .closing }
  | .closeWriter =>
      match r.writer with
      | .closing => r
      | .gone => r
      | _ => { r with wfd := r.wfd - 1, writer := .closing }

end PipeRun

/-- The states of the runs whose moves meet a condition. -/
inductive PipeReached (ok : PipeRun → PipeMove → Prop) : PipeRun → Prop where
  | start : PipeReached ok .start
  | step {r : PipeRun} {m : PipeMove} : PipeReached ok r → ok r m → PipeReached ok (r.step m)

end Jos

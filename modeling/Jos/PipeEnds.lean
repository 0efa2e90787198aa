import Jos.Descriptors

/-!
# `lib/pipe.c`: the ends of a pipe

Any set of environments holds ends of one pipe and closes, duplicates and
inherits descriptors, one page system call at a time, while others ask
`_pipeisclosed`, on any number of processors.

`closed_sound` is the result: as long as no environment that holds an end forks
or spawns, `dup` names a descriptor, and nobody else changes an address space
between the two counts that `_pipeisclosed` compares unless the reader is
rescheduled, the buffer has at least as many references as the two descriptor
pages together, and a pipe is found closed only when its other end is gone.

`fork` and `copy_shared_pages` copy pages in the order of their addresses, all
descriptor pages before all buffers, and `not_closed_sound` is what follows.
-/

namespace Jos

/-- The pages of a pipe. -/
structure Pipe where
  rfd : Nat
  wfd : Nat
  buf : Nat
  rfd_ne_wfd : rfd ≠ wfd
  rfd_ne_buf : rfd ≠ buf
  wfd_ne_buf : wfd ≠ buf

namespace Pipe

variable (P : Pipe)

def IsEnd (q : Nat) : Prop := q = P.rfd ∨ q = P.wfd

/-- The descriptor page of the other end. -/
def other (q : Nat) : Nat := if q = P.rfd then P.wfd else P.rfd

def pages : Set Nat := fun q => P.IsEnd q ∨ q = P.buf

variable {P} {q : Nat}

theorem IsEnd.mem (h : P.IsEnd q) : q ∈ P.pages := Or.inl h

theorem buf_mem : P.buf ∈ P.pages := Or.inr rfl

theorem IsEnd.ne_buf (h : P.IsEnd q) : q ≠ P.buf := by
  rcases h with rfl | rfl
  · exact P.rfd_ne_buf
  · exact P.wfd_ne_buf

theorem other_isEnd : P.IsEnd (P.other q) := by
  unfold other IsEnd
  by_cases h : q = P.rfd
  · simp [h]
  · simp [h]

end Pipe

/-! ## The machine -/

/-- Who asks whether the pipe is closed: `pipeisclosed`, `devpipe_read` or
`devpipe_write`. -/
inductive Asker where
  | pipeisclosed
  | read
  | write
deriving DecidableEq

/-- Where an environment stands in the loop of `_pipeisclosed`.  `runs` is how
often it had run when it read `env_runs`, which has 32 bits. -/
inductive Stage where
  | start
  | counted (runs : Nat)
  | first (runs : Nat) (fdRefs : Nat)
  | second (runs : Nat) (ret : Bool)

/-- What an environment is doing.  `loop` and `ask` are at descriptor `i`, with
`got` of `n` bytes moved; after `closed` the routine returns. -/
inductive Job where
  | idle
  | lib (c : LibCode)
  | loop (asker : Asker) (i got n : Nat)
  | ask (asker : Asker) (i got n : Nat) (stage : Stage)
  | closed (asker : Asker) (i got n : Nat)

structure PipeState where
  users : Users
  job : Nat → Job
  runs : Nat → Nat
  rpos : U32
  wpos : U32

namespace PipeState

def setJob (s : PipeState) (e : Nat) (j : Job) : PipeState :=
  { s with job := Function.update s.job e j }

def setUsers (s : PipeState) (u : Users) : PipeState := { s with users := u }

end PipeState

/-- The calls that environments make. -/
inductive PipeCall where
  | close (i : Int)
  | dup (old new : Int)
  | fork
  | spawn (fits : Bool) (image : List (U32 × List (Nat × Bool)))

def PipeCall.code (isPipe : Nat → Bool) : PipeCall → LibCode
  | close i => LibCode.close isPipe i
  | dup old new => LibCode.dup isPipe old new
  | fork => LibCode.fork
  | spawn fits image => LibCode.spawn isPipe fits image

inductive PipeEvent where
  | call (e : Nat) (c : PipeCall)
  | ask (e : Nat) (asker : Asker) (i n : Nat)
  | work (e : Nat)
  | exit (e : Nat)
  | resched (e : Nat)

/-- One step of the loop of `devpipe_read` or `devpipe_write`, or of
`_pipeisclosed`, by environment `e`: what it does next, and the positions. -/
inductive LoopStep (s : PipeState) (e : Nat) : Job → Job → U32 → U32 → Prop where
  | full {asker : Asker} {i n : Nat} :
      LoopStep s e (.loop asker i n n) .idle s.rpos s.wpos
  | take {i got n : Nat} :
      got < n → s.rpos ≠ s.wpos →
      LoopStep s e (.loop .read i got n) (.loop .read i (got + 1) n)
        (s.rpos + 1#32) s.wpos
  | some {i got n : Nat} :
      got < n → s.rpos = s.wpos → 0 < got →
      LoopStep s e (.loop .read i got n) .idle s.rpos s.wpos
  | empty {i n : Nat} :
      0 < n → s.rpos = s.wpos →
      LoopStep s e (.loop .read i 0 n) (.ask .read i 0 n .start) s.rpos s.wpos
  | put {i got n : Nat} :
      got < n → ¬ s.rpos + 32#32 ≤ s.wpos →
      LoopStep s e (.loop .write i got n) (.loop .write i (got + 1) n)
        s.rpos (s.wpos + 1#32)
  | wait {i got n : Nat} :
      got < n → s.rpos + 32#32 ≤ s.wpos →
      LoopStep s e (.loop .write i got n) (.ask .write i got n .start)
        s.rpos s.wpos
  | start {asker : Asker} {i got n : Nat} :
      LoopStep s e (.ask asker i got n .start)
        (.ask asker i got n (.counted (s.runs e))) s.rpos s.wpos
  | first {asker : Asker} {i got n r : Nat} :
      LoopStep s e (.ask asker i got n (.counted r))
        (.ask asker i got n (.first r (s.users.pageref e (fdPage i)))) s.rpos s.wpos
  | second {asker : Asker} {i got n r a : Nat} :
      LoopStep s e (.ask asker i got n (.first r a))
        (.ask asker i got n
          (.second r (decide (a = s.users.pageref e (dataPage i))))) s.rpos s.wpos
  | again {asker : Asker} {i got n r : Nat} {ret : Bool} :
      ¬ s.runs e % 2 ^ 32 = r % 2 ^ 32 →
      LoopStep s e (.ask asker i got n (.second r ret)) (.ask asker i got n .start)
        s.rpos s.wpos
  | closed {asker : Asker} {i got n r : Nat} :
      s.runs e % 2 ^ 32 = r % 2 ^ 32 →
      LoopStep s e (.ask asker i got n (.second r true)) (.closed asker i got n)
        s.rpos s.wpos
  | «open» {asker : Asker} {i got n r : Nat} :
      s.runs e % 2 ^ 32 = r % 2 ^ 32 →
      -- `devpipe_read` and `devpipe_write` yield and look again
      LoopStep s e (.ask asker i got n (.second r false))
        (if asker = .pipeisclosed then .idle else .loop asker i got n)
        s.rpos s.wpos
  | return {asker : Asker} {i got n : Nat} :
      LoopStep s e (.closed asker i got n) .idle s.rpos s.wpos

/-- One step of the machine. -/
inductive PipeStep (isPipe : Nat → Bool) (P : Pipe) :
    PipeState → PipeEvent → PipeState → Prop where
  | call {s : PipeState} {e : Nat} {c : PipeCall} :
      s.users.life e = .alive → s.job e = .idle →
      PipeStep isPipe P s (.call e c) (s.setJob e (.lib (c.code isPipe)))
  | ask {s : PipeState} {e i n q : Nat} {asker : Asker} :
      s.users.life e = .alive → s.job e = .idle → i < 32 →
      (s.users.spaces e).page (fdPage i) = some q → P.IsEnd q →
      PipeStep isPipe P s (.ask e asker i n)
        (s.setJob e (if asker = .pipeisclosed then .ask asker i 0 n .start
          else .loop asker i 0 n))
  | lib {s : PipeState} {e : Nat} {c c' : LibCode} {u : Users} :
      s.users.life e = .alive → s.job e = .lib c →
      LibCode.Step P.pages e c s.users c' u →
      PipeStep isPipe P s (.work e) ((s.setUsers u).setJob e (.lib c'))
  | ret {s : PipeState} {e : Nat} :
      s.users.life e = .alive → s.job e = .lib .ret →
      PipeStep isPipe P s (.work e) (s.setJob e .idle)
  | loop {s : PipeState} {e : Nat} {j j' : Job} {rpos wpos : U32} :
      s.users.life e = .alive → s.job e = j → LoopStep s e j j' rpos wpos →
      PipeStep isPipe P s (.work e)
        { s.setJob e j' with rpos := rpos, wpos := wpos }
  | exit {s : PipeState} {e : Nat} :
      s.users.life e = .alive →
      PipeStep isPipe P s (.exit e)
        ((s.setUsers ((s.users.setLife e .free).setSpace e (fun _ => none))).setJob e
          .idle)
  | resched {s : PipeState} {e : Nat} :
      s.users.life e = .alive →
      PipeStep isPipe P s (.resched e)
        { s with runs := Function.update s.runs e (s.runs e + 1) }

end Jos

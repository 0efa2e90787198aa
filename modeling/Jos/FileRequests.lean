import Jos.Descriptors
import Mathlib.Logic.Relation

/-!
# `fsipc` and `serve`: requests to the file server

Environments send messages to each other in any order.  `fsipc` sends a request to
the file server and takes the next message that it gets for the reply; `serve`
takes one request after the other.  Requests are numbered as the server accepts
them, to say which reply belongs to which request.

`fsipc_sound` is the result, for runs in which nobody but the server sends to an
environment that waits in `fsipc`; `not_fsipc_sound` is what a third environment
can do.
-/

namespace Jos

open Relation

/-- `PGNUM(fsreq)`. -/
def fsreqPage : Nat := 0xFFFF

/-- `FSREQ_OPEN`. -/
def fsreqOpen : U32 := 1#32

/-- The IPC fields of `struct Env`; a destination above `UTOP` is none. -/
structure IpcBox where
  recving : Bool
  dstva : Option Nat
  sender : Nat
  value : U32
  perm : U32

/-- The errors of `sys_ipc_try_send`. -/
inductive IpcError where
  | badEnv
  | notRecv
  | inval
  | noMem

/-- What an environment is doing.  It is blocked in an `ipc_recv` of its own, or it
is in `fsipc`: it sends, it has sent request `n`, it waits, it has a reply. -/
inductive FsipcJob where
  | idle
  | blocked
  | sends (type : U32) (dst : Option Nat)
  | sent (n : Nat) (type : U32) (dst : Option Nat)
  | waits (n : Nat) (type : U32) (dst : Option Nat)
  | returns (n : Nat) (type : U32) (dst : Option Nat) (v : U32)

/-- Where the server stands in the loop of `serve`. -/
inductive ServeJob where
  | listens
  | receives
  | handles (n whom : Nat) (req perm : U32)
  | replies (n whom : Nat) (r : U32) (pg : Option Nat) (perm : U32)
  | panicked

/-- All environments.  `asked` is who sent which request, and `answered` the value
and the page that the server made up for it. -/
structure IpcState where
  alive : Nat → Bool
  box : Nat → IpcBox
  space : Nat → Space
  job : Nat → FsipcJob
  server : ServeJob
  count : Nat
  asked : Nat → Option (Nat × U32)
  answered : Nat → Option (U32 × Option Nat)

namespace IpcState

def setJob (s : IpcState) (e : Nat) (j : FsipcJob) : IpcState :=
  { s with job := Function.update s.job e j }

def setAlive (s : IpcState) (e : Nat) (b : Bool) : IpcState :=
  { s with alive := Function.update s.alive e b }

def setSpace (s : IpcState) (e : Nat) (m : Space) : IpcState :=
  { s with space := Function.update s.space e m }

/-- An environment starts without a message to wait for. -/
def ready (s : IpcState) (e : Nat) : IpcState :=
  { s with box := Function.update s.box e { s.box e with recving := false } }

/-- The receiver gets a message. -/
def accept (s : IpcState) (cur dest : Nat) (value perm : U32) (m : Space) : IpcState :=
  { s with
    box := Function.update s.box dest
      { s.box dest with recving := false, sender := cur, value := value, perm := perm }
    space := Function.update s.space dest m }

/-- The message that the server got has the next number. -/
def number (s : IpcState) (e : Nat) (type : U32) : IpcState :=
  { s with
    count := s.count + 1
    asked := Function.update s.asked s.count (some (e, type)) }

end IpcState

/-- `sys_ipc_try_send` by `cur`, of the page `src` if there is one; whether there is
room for a page table is up to the kernel. -/
def ipcTrySend (s : IpcState) (cur dest : Nat) (value : U32) (src : Option Nat) (perm : U32)
    (room : Bool) : Except IpcError IpcState :=
  if s.alive dest = false then .error .badEnv
  else if (s.box dest).recving = false then .error .notRecv
  else match src with
    | none => .ok (s.accept cur dest value (s.box dest).perm (s.space dest))
    | some v => match s.space cur v with
      | none => .error .inval
      | some w =>
          if w.perm &&& perm &&& 7#32 ≠ perm &&& 7#32 then .error .inval
          else if HasFlag perm pteW ∧ ¬ HasFlag w.perm pteW then .error .inval
          else match (s.box dest).dstva with
            | none => .ok (s.accept cur dest value (s.box dest).perm (s.space dest))
            | some d =>
                if room then
                  .ok (s.accept cur dest value perm
                    ((s.space dest).set d (some ⟨w.page, perm ||| pteP⟩)))
                else .error .noMem

/-- `sys_ipc_recv`, of a destination that is page-aligned or above `UTOP`. -/
def ipcRecv (s : IpcState) (cur : Nat) (dst : Option Nat) : IpcState :=
  let b := { s.box cur with recving := true, dstva := dst }
  { s with box := Function.update s.box cur b }

/-- Who does something; a message that is not part of `fsipc` or `serve` has a
receiver. -/
inductive IpcEvent where
  | send (e dest : Nat)
  | work (e : Nat)

/-- One step of an environment or of the server `fs`. -/
inductive IpcStep (fs : Nat) : IpcState → IpcEvent → IpcState → Prop where
  | start {s : IpcState} {e : Nat} {m : Space} :
      e ≠ fs → s.alive e = false →
      IpcStep fs s (.work e) ((((s.setAlive e true).ready e).setSpace e m).setJob e .idle)
  | exit {s : IpcState} {e : Nat} :
      e ≠ fs → s.alive e = true →
      IpcStep fs s (.work e)
        ((s.setAlive e false).setJob e .idle)
  /-- The environment changes its own mappings. -/
  | map {s : IpcState} {e : Nat} {m : Space} :
      e ≠ fs → s.alive e = true → s.job e = .idle →
      IpcStep fs s (.work e) (s.setSpace e m)
  | recv {s : IpcState} {e : Nat} {dst : Option Nat} :
      e ≠ fs → s.alive e = true → s.job e = .idle →
      IpcStep fs s (.work e) ((ipcRecv s e dst).setJob e .blocked)
  | wakes {s : IpcState} {e : Nat} :
      e ≠ fs → s.alive e = true → s.job e = .blocked → (s.box e).recving = false →
      IpcStep fs s (.work e) (s.setJob e .idle)
  | send {s s' : IpcState} {e dest : Nat} {value perm : U32} {src : Option Nat}
      {room : Bool} :
      e ≠ fs → s.alive e = true → s.job e = .idle → dest ≠ fs →
      ipcTrySend s e dest value src perm room = .ok s' →
      IpcStep fs s (.send e dest) s'
  | sendServer {s s' : IpcState} {e : Nat} {value perm : U32} {src : Option Nat}
      {room : Bool} :
      e ≠ fs → s.alive e = true → s.job e = .idle →
      ipcTrySend s e fs value src perm room = .ok s' →
      IpcStep fs s (.send e fs) (s'.number e value)
  | call {s : IpcState} {e : Nat} {type : U32} {dst : Option Nat} :
      e ≠ fs → s.alive e = true → s.job e = .idle →
      IpcStep fs s (.work e) (s.setJob e (.sends type dst))
  /-- `ipc_send` of `fsipc`; `v` is the page of `fsipcbuf`. -/
  | request {s s' : IpcState} {e v : Nat} {type : U32} {dst : Option Nat} {room : Bool} :
      e ≠ fs → s.alive e = true → s.job e = .sends type dst →
      ipcTrySend s e fs type (some v) (pteP ||| pteW ||| pteU) room = .ok s' →
      IpcStep fs s (.work e) ((s'.number e type).setJob e (.sent s.count type dst))
  | requestPanics {s : IpcState} {e : Nat} {type : U32} {dst : Option Nat} :
      e ≠ fs → s.alive e = true → s.job e = .sends type dst →
      IpcStep fs s (.work e)
        ((s.setAlive e false).setJob e .idle)
  /-- `ipc_recv` of `fsipc`. -/
  | receive {s : IpcState} {e n : Nat} {type : U32} {dst : Option Nat} :
      e ≠ fs → s.alive e = true → s.job e = .sent n type dst →
      IpcStep fs s (.work e) ((ipcRecv s e dst).setJob e (.waits n type dst))
  | reads {s : IpcState} {e n : Nat} {type : U32} {dst : Option Nat} :
      e ≠ fs → s.alive e = true → s.job e = .waits n type dst →
      (s.box e).recving = false →
      IpcStep fs s (.work e) (s.setJob e (.returns n type dst (s.box e).value))
  | ret {s : IpcState} {e n : Nat} {type v : U32} {dst : Option Nat} :
      e ≠ fs → s.alive e = true → s.job e = .returns n type dst v →
      IpcStep fs s (.work e) (s.setJob e .idle)
  | serveRecv {s : IpcState} :
      s.server = .listens →
      IpcStep fs s (.work fs) { ipcRecv s fs (some fsreqPage) with server := .receives }
  /-- A request has an argument page. -/
  | serveTake {s : IpcState} :
      s.server = .receives → (s.box fs).recving = false →
      HasFlag (s.box fs).perm pteP →
      IpcStep fs s (.work fs) { s with
        server := .handles (s.count - 1) (s.box fs).sender (s.box fs).value
          (s.box fs).perm }
  | serveDrop {s : IpcState} :
      s.server = .receives → (s.box fs).recving = false →
      ¬ HasFlag (s.box fs).perm pteP →
      IpcStep fs s (.work fs) { s with server := .listens }
  /-- A handler does its work, in the server's address space; only `serve_open` sends
  a page. -/
  | serveHandle {s : IpcState} {n whom : Nat} {req perm r perm' : U32} {pg : Option Nat}
      {m : Space} :
      s.server = .handles n whom req perm →
      (req ≠ fsreqOpen → pg = none ∧ perm' = perm) →
      IpcStep fs s (.work fs) { s.setSpace fs m with
        server := .replies n whom r pg perm'
        answered := Function.update s.answered n (some (r, pg.bind m.page)) }
  | serveReply {s s' : IpcState} {n whom : Nat} {r perm : U32} {pg : Option Nat}
      {room : Bool} :
      s.server = .replies n whom r pg perm →
      ipcTrySend s fs whom r pg perm room = .ok s' →
      IpcStep fs s (.work fs) { s'.setSpace fs ((s'.space fs).set fsreqPage none) with
        server := .listens }
  | servePanics {s : IpcState} {n whom : Nat} {r perm : U32} {pg : Option Nat} :
      s.server = .replies n whom r pg perm →
      IpcStep fs s (.work fs) { s with server := .panicked }

section Claim

variable (fs : Nat)

/-- What environment `e` got is what the server sent for its request `n`. -/
structure Replied (s : IpcState) (e n : Nat) (type : U32) (dst : Option Nat) (v : U32) :
    Prop where
  asked : s.asked n = some (e, type)
  sender : (s.box e).sender = fs
  answered : ∃ pg, s.answered n = some (v, pg) ∧
    ∀ p d, pg = some p → dst = some d → (s.space e).page d = some p

/-- `fsipc` returns replies to its own requests. -/
def FsipcSound (s : IpcState) : Prop :=
  ∀ e n type dst v, s.job e = .returns n type dst v → Replied fs s e n type dst v

/-- Nobody is in `fsipc`, and the server has not begun. -/
structure ServeStart (s : IpcState) : Prop where
  server : s.server = .listens
  ready : (s.box fs).recving = false
  idle : ∀ e, s.job e = .idle
  awake : ∀ e, s.alive e = true → (s.box e).recving = false
  asked : ∀ n, s.asked n = none
  answered : ∀ n, s.answered n = none

/-- A message goes to nobody who waits for the server. -/
def IpcEvent.Clean (s : IpcState) : IpcEvent → Prop
  | .send _ dest => ∀ n type dst, s.job dest ≠ .waits n type dst
  | .work _ => True

end Claim

/-! ## What a message changes -/

section Send

variable {s s' : IpcState} {cur dest : Nat} {value perm : U32} {src : Option Nat} {room : Bool}

/-- A message that is accepted: with a page that the sender maps, or without. -/
inductive Accepted (s : IpcState) (cur dest : Nat) (value : U32) (src : Option Nat)
    (perm : U32) : IpcState → Prop where
  | plain :
      src = none ∨ (s.box dest).dstva = none →
      Accepted s cur dest value src perm
        (s.accept cur dest value (s.box dest).perm (s.space dest))
  | page {v d : Nat} {w : UserPte} :
      src = some v → s.space cur v = some w → (s.box dest).dstva = some d →
      Accepted s cur dest value src perm (s.accept cur dest value perm
        ((s.space dest).set d (some ⟨w.page, perm ||| pteP⟩)))

theorem ipcTrySend_ok (h : ipcTrySend s cur dest value src perm room = .ok s') :
    s.alive dest = true ∧ (s.box dest).recving = true ∧
      Accepted s cur dest value src perm s' := by
  unfold ipcTrySend at h
  split at h
  case isTrue => cases h
  case isFalse halive =>
    split at h
    case isTrue => cases h
    case isFalse hrecv =>
      refine ⟨by simpa using halive, by simpa using hrecv, ?_⟩
      cases src with
      | none =>
          cases h
          exact .plain (Or.inl rfl)
      | some v =>
          simp only at h
          cases hw : s.space cur v with
          | none => simp [hw] at h
          | some w =>
              rw [hw] at h
              simp only at h
              split at h
              case isTrue => cases h
              case isFalse =>
                split at h
                case isTrue => cases h
                case isFalse =>
                  cases hd : (s.box dest).dstva with
                  | none =>
                      simp only [hd] at h
                      cases h
                      exact .plain (Or.inr hd)
                  | some d =>
                      simp only [hd] at h
                      split at h
                      case isTrue =>
                        cases h
                        exact .page rfl hw hd
                      case isFalse => cases h

/-- Only the receiver's message and mappings change. -/
structure KeepsOthers (s s' : IpcState) (dest : Nat) : Prop where
  alive : s'.alive = s.alive
  job : s'.job = s.job
  server : s'.server = s.server
  count : s'.count = s.count
  asked : s'.asked = s.asked
  answered : s'.answered = s.answered
  box : ∀ x, x ≠ dest → s'.box x = s.box x
  space : ∀ x, x ≠ dest → s'.space x = s.space x
  recving : (s'.box dest).recving = false
  dstva : (s'.box dest).dstva = (s.box dest).dstva

theorem accept_keeps {m : Space} : KeepsOthers s (s.accept cur dest value perm m) dest where
  alive := rfl
  job := rfl
  server := rfl
  count := rfl
  asked := rfl
  answered := rfl
  box := fun _ hx => Function.update_of_ne hx _ _
  space := fun _ hx => Function.update_of_ne hx _ _
  recving := by simp [IpcState.accept]
  dstva := by simp [IpcState.accept]

theorem Accepted.keeps (h : Accepted s cur dest value src perm s') : KeepsOthers s s' dest := by
  cases h with
  | plain _ => exact accept_keeps
  | page _ _ _ => exact accept_keeps

theorem Accepted.message (h : Accepted s cur dest value src perm s') :
    (s'.box dest).sender = cur ∧ (s'.box dest).value = value := by
  cases h with
  | plain _ => simp [IpcState.accept]
  | page _ _ _ => simp [IpcState.accept]

/-- A receiver that wants a page and is sent one has it. -/
theorem Accepted.mapped (h : Accepted s cur dest value src perm s') {v d p : Nat}
    (hsrc : src = some v) (hd : (s.box dest).dstva = some d)
    (hp : (s.space cur).page v = some p) :
    (s'.space dest).page d = some p ∧ (s'.box dest).perm = perm := by
  cases h with
  | plain hno =>
      rcases hno with hno | hno
      · simp [hsrc] at hno
      · simp [hd] at hno
  | @page v' d' w hsrc' hw hd' =>
      obtain rfl : v = v' := Option.some.inj (hsrc.symm.trans hsrc')
      obtain rfl : d = d' := Option.some.inj (hd.symm.trans hd')
      have hpage : w.page = p := by
        unfold Space.page at hp
        rw [hw] at hp
        exact Option.some.inj hp
      subst hpage
      refine ⟨?_, by simp [IpcState.accept]⟩
      unfold IpcState.accept
      simp only [Function.update_self]
      rw [Space.page_set_self]
      rfl

/-- What is sent in a message with a page is mapped. -/
theorem Accepted.source (h : Accepted s cur dest value src perm s') {v d : Nat}
    (hsrc : src = some v) (hd : (s.box dest).dstva = some d) :
    ∃ p, (s.space cur).page v = some p := by
  cases h with
  | plain hno =>
      rcases hno with hno | hno
      · simp [hsrc] at hno
      · simp [hd] at hno
  | @page v' d' w hsrc' hw hd' =>
      obtain rfl : v = v' := Option.some.inj (hsrc.symm.trans hsrc')
      refine ⟨w.page, ?_⟩
      unfold Space.page
      rw [hw]
      rfl

end Send

/-! ## The invariant -/

section Invariant

variable {fs e : Nat} {s s' : IpcState}

/-- The server works on request `n` of environment `e`, or has failed. -/
inductive InService (fs : Nat) (s : IpcState) (e n : Nat) : Prop where
  | receives :
      s.server = .receives → (s.box fs).recving = false → n + 1 = s.count →
      (s.box fs).sender = e → HasFlag (s.box fs).perm pteP → InService fs s e n
  | handles {req perm : U32} :
      s.server = .handles n e req perm → InService fs s e n
  | replies {r perm : U32} {pg : Option Nat} :
      s.server = .replies n e r pg perm → InService fs s e n
  | panicked : s.server = .panicked → InService fs s e n

/-- Who is in `fsipc` is served, or has its reply. -/
def ClientOk (fs : Nat) (s : IpcState) (e : Nat) : Prop :=
  match s.job e with
  | .idle => s.alive e = true → (s.box e).recving = false
  | .blocked => True
  | .sends _ _ => (s.box e).recving = false
  | .sent n type _ =>
      (s.box e).recving = false ∧ s.asked n = some (e, type) ∧ InService fs s e n
  | .waits n type dst =>
      ((s.box e).recving = true →
        s.asked n = some (e, type) ∧ InService fs s e n ∧ (s.box e).dstva = dst) ∧
      ((s.box e).recving = false → Replied fs s e n type dst (s.box e).value)
  | .returns n type dst v => (s.box e).recving = false ∧ Replied fs s e n type dst v

/-- What the server knows of the request that it works on. -/
inductive ServerOk (fs : Nat) (s : IpcState) : Prop where
  | listens : s.server = .listens → (s.box fs).recving = false → ServerOk fs s
  | receives :
      s.server = .receives → (s.box fs).dstva = some fsreqPage →
      ((s.box fs).recving = false → 0 < s.count ∧ (s.box fs).sender ≠ fs ∧
        s.asked (s.count - 1) = some ((s.box fs).sender, (s.box fs).value) ∧
        s.answered (s.count - 1) = none) →
      ServerOk fs s
  | handles {n whom : Nat} {req perm : U32} :
      s.server = .handles n whom req perm → (s.box fs).recving = false → n < s.count →
      whom ≠ fs → s.asked n = some (whom, req) → s.answered n = none → ServerOk fs s
  | replies {n whom : Nat} {r perm : U32} {pg : Option Nat} :
      s.server = .replies n whom r pg perm → (s.box fs).recving = false → n < s.count →
      whom ≠ fs → s.answered n = some (r, pg.bind (s.space fs).page) → ServerOk fs s
  | panicked : s.server = .panicked → (s.box fs).recving = false → ServerOk fs s

/-- What every step keeps. -/
structure FsipcInv (fs : Nat) (s : IpcState) : Prop where
  client : ∀ e, e ≠ fs → ClientOk fs s e
  idle : s.job fs = .idle
  server : ServerOk fs s
  later : ∀ n, s.count ≤ n → s.asked n = none ∧ s.answered n = none

theorem ServeStart.inv (h : ServeStart fs s) : FsipcInv fs s where
  client := fun e _ => by
    unfold ClientOk
    rw [h.idle e]
    exact h.awake e
  idle := h.idle fs
  server := .listens h.server h.ready
  later := fun n _ => ⟨h.asked n, h.answered n⟩

theorem FsipcInv.sound (h : FsipcInv fs s) : FsipcSound fs s := by
  intro e n type dst v hj
  have hne : e ≠ fs := by
    rintro rfl
    simp [h.idle] at hj
  have hok := h.client e hne
  unfold ClientOk at hok
  rw [hj] at hok
  exact hok.2

/-- Numbers that were given out keep their meaning. -/
structure Extends (s s' : IpcState) : Prop where
  asked : ∀ n a, s.asked n = some a → s'.asked n = some a
  answered : ∀ n a, s.answered n = some a → s'.answered n = some a

theorem Extends.of_eq (hasked : s'.asked = s.asked) (hanswered : s'.answered = s.answered) :
    Extends s s' where
  asked := fun n a h => by rw [hasked, h]
  answered := fun n a h => by rw [hanswered, h]

theorem Replied.mono {n : Nat} {type v : U32} {dst : Option Nat}
    (h : Replied fs s e n type dst v) (hext : Extends s s') (hbox : s'.box e = s.box e)
    (hspace : s'.space e = s.space e) : Replied fs s' e n type dst v where
  asked := hext.asked _ _ h.asked
  sender := by
    rw [hbox]
    exact h.sender
  answered := by
    obtain ⟨pg, hpg, hmap⟩ := h.answered
    refine ⟨pg, hext.answered _ _ hpg, ?_⟩
    rw [hspace]
    exact hmap

/-- An environment that does nothing itself and gets no message. -/
theorem ClientOk.mono (h : ClientOk fs s e) (hext : Extends s s')
    (hjob : s'.job e = s.job e) (halive : s'.alive e = s.alive e)
    (hbox : s'.box e = s.box e) (hspace : s'.space e = s.space e)
    (hserve : ∀ n, InService fs s e n → InService fs s' e n) : ClientOk fs s' e := by
  unfold ClientOk at h ⊢
  rw [hjob, halive, hbox]
  cases hj : s.job e with
  | idle =>
      rw [hj] at h
      exact h
  | blocked => trivial
  | sends type dst =>
      rw [hj] at h
      exact h
  | sent n type dst =>
      rw [hj] at h
      exact ⟨h.1, hext.asked _ _ h.2.1, hserve n h.2.2⟩
  | waits n type dst =>
      rw [hj] at h
      refine ⟨fun hrecv => ?_, fun hrecv => (h.2 hrecv).mono hext hbox hspace⟩
      obtain ⟨hasked, hin, hdst⟩ := h.1 hrecv
      exact ⟨hext.asked _ _ hasked, hserve n hin, hdst⟩
  | returns n type dst v =>
      rw [hj] at h
      exact ⟨h.1, h.2.mono hext hbox hspace⟩

/-! ## Steps of the environments -/

/-- Nothing changes but for environment `e`. -/
structure Elsewhere (s s' : IpcState) (e : Nat) : Prop where
  server : s'.server = s.server
  count : s'.count = s.count
  asked : s'.asked = s.asked
  answered : s'.answered = s.answered
  alive : ∀ x, x ≠ e → s'.alive x = s.alive x
  job : ∀ x, x ≠ e → s'.job x = s.job x
  box : ∀ x, x ≠ e → s'.box x = s.box x
  space : ∀ x, x ≠ e → s'.space x = s.space x

theorem Elsewhere.inService (h : Elsewhere s s' e) (hne : e ≠ fs) {x n : Nat}
    (hin : InService fs s x n) : InService fs s' x n := by
  have hbox := h.box fs (Ne.symm hne)
  cases hin with
  | receives hserver hrecv hn hsender hperm =>
      refine .receives (h.server.trans hserver) ?_ (hn.trans h.count.symm) ?_ ?_
      · rw [hbox]
        exact hrecv
      · rw [hbox]
        exact hsender
      · rw [hbox]
        exact hperm
  | handles hserver => exact .handles (h.server.trans hserver)
  | replies hserver => exact .replies (h.server.trans hserver)
  | panicked hserver => exact .panicked (h.server.trans hserver)

/-- The rest keeps what it knows if the environment does. -/
theorem FsipcInv.elsewhere (h : FsipcInv fs s) (hne : e ≠ fs) (helse : Elsewhere s s' e)
    (hok : ClientOk fs s' e) : FsipcInv fs s' where
  client := fun x hx => by
    by_cases hxe : x = e
    · subst hxe
      exact hok
    · exact (h.client x hx).mono (.of_eq helse.asked helse.answered) (helse.job x hxe)
        (helse.alive x hxe) (helse.box x hxe) (helse.space x hxe)
        (fun n hin => helse.inService hne hin)
  idle := (helse.job fs (Ne.symm hne)).trans h.idle
  server := by
    have hserver := h.server
    have hbox := helse.box fs (Ne.symm hne)
    cases hserver with
    | listens hs hrecv =>
        exact .listens (helse.server.trans hs) (by rw [hbox, hrecv])
    | receives hs hdst hgot =>
        refine .receives (helse.server.trans hs) (by rw [hbox, hdst]) ?_
        rw [hbox, helse.count, helse.asked, helse.answered]
        exact hgot
    | handles hs hrecv hn hwhom hasked hanswered =>
        refine .handles (helse.server.trans hs) (by rw [hbox, hrecv]) ?_ hwhom ?_ ?_
        · rw [helse.count]
          exact hn
        · rw [helse.asked]
          exact hasked
        · rw [helse.answered]
          exact hanswered
    | replies hs hrecv hn hwhom hanswered =>
        refine .replies (helse.server.trans hs) (by rw [hbox, hrecv]) ?_ hwhom ?_
        · rw [helse.count]
          exact hn
        · rw [helse.answered, helse.space fs (Ne.symm hne)]
          exact hanswered
    | panicked hs hrecv =>
        exact .panicked (helse.server.trans hs) (by rw [hbox, hrecv])
  later := by
    rw [helse.count, helse.asked, helse.answered]
    exact h.later

theorem setJob_elsewhere {j : FsipcJob} : Elsewhere s (s.setJob e j) e where
  server := rfl
  count := rfl
  asked := rfl
  answered := rfl
  alive := fun _ _ => rfl
  job := fun _ hx => Function.update_of_ne hx _ _
  box := fun _ _ => rfl
  space := fun _ _ => rfl

theorem setAlive_elsewhere {b : Bool} : Elsewhere s (s.setAlive e b) e where
  server := rfl
  count := rfl
  asked := rfl
  answered := rfl
  alive := fun _ hx => Function.update_of_ne hx _ _
  job := fun _ _ => rfl
  box := fun _ _ => rfl
  space := fun _ _ => rfl

theorem setSpace_elsewhere {m : Space} : Elsewhere s (s.setSpace e m) e where
  server := rfl
  count := rfl
  asked := rfl
  answered := rfl
  alive := fun _ _ => rfl
  job := fun _ _ => rfl
  box := fun _ _ => rfl
  space := fun _ hx => Function.update_of_ne hx _ _

theorem ready_elsewhere : Elsewhere s (s.ready e) e where
  server := rfl
  count := rfl
  asked := rfl
  answered := rfl
  alive := fun _ _ => rfl
  job := fun _ _ => rfl
  box := fun _ hx => Function.update_of_ne hx _ _
  space := fun _ _ => rfl

theorem ipcRecv_elsewhere {dst : Option Nat} : Elsewhere s (ipcRecv s e dst) e where
  server := rfl
  count := rfl
  asked := rfl
  answered := rfl
  alive := fun _ _ => rfl
  job := fun _ _ => rfl
  box := fun _ hx => Function.update_of_ne hx _ _
  space := fun _ _ => rfl

theorem KeepsOthers.elsewhere (h : KeepsOthers s s' e) : Elsewhere s s' e where
  server := h.server
  count := h.count
  asked := h.asked
  answered := h.answered
  alive := fun x _ => by rw [h.alive]
  job := fun x _ => by rw [h.job]
  box := h.box
  space := h.space

theorem Elsewhere.trans {t : IpcState} (h : Elsewhere s s' e) (h' : Elsewhere s' t e) :
    Elsewhere s t e where
  server := h'.server.trans h.server
  count := h'.count.trans h.count
  asked := h'.asked.trans h.asked
  answered := h'.answered.trans h.answered
  alive := fun x hx => (h'.alive x hx).trans (h.alive x hx)
  job := fun x hx => (h'.job x hx).trans (h.job x hx)
  box := fun x hx => (h'.box x hx).trans (h.box x hx)
  space := fun x hx => (h'.space x hx).trans (h.space x hx)

@[simp] theorem setJob_self {j : FsipcJob} : (s.setJob e j).job e = j :=
  Function.update_self _ _ _

/-- The server listens only in `ipc_recv`. -/
theorem ServerOk.receiving (h : ServerOk fs s) (hrecv : (s.box fs).recving = true) :
    s.server = .receives ∧ (s.box fs).dstva = some fsreqPage := by
  cases h with
  | listens _ hno => simp [hrecv] at hno
  | receives hs hdst _ => exact ⟨hs, hdst⟩
  | handles _ hno _ _ _ _ => simp [hrecv] at hno
  | replies _ hno _ _ _ => simp [hrecv] at hno
  | panicked _ hno => simp [hrecv] at hno

/-- A message from an environment to another one that does not wait in `fsipc`. -/
theorem FsipcInv.send (h : FsipcInv fs s) {cur dest : Nat} {value perm : U32}
    {src : Option Nat} {room : Bool} (hdest : dest ≠ fs)
    (hclean : ∀ n type dst, s.job dest ≠ .waits n type dst)
    (hsend : ipcTrySend s cur dest value src perm room = .ok s') : FsipcInv fs s' := by
  obtain ⟨halive, hrecv, hacc⟩ := ipcTrySend_ok hsend
  have hkeeps := hacc.keeps
  refine h.elsewhere hdest hkeeps.elsewhere ?_
  have hok := h.client dest hdest
  unfold ClientOk at hok ⊢
  rw [hkeeps.job]
  cases hj : s.job dest with
  | idle => exact fun _ => hkeeps.recving
  | blocked => trivial
  | sends type dst => exact hkeeps.recving
  | sent n type dst =>
      rw [hj] at hok
      simp [hrecv] at hok
  | waits n type dst => exact absurd hj (hclean n type dst)
  | returns n type dst v =>
      rw [hj] at hok
      simp [hrecv] at hok

/-- A message to the server gets a number. -/
theorem FsipcInv.asks (h : FsipcInv fs s) {value perm : U32} {src : Option Nat}
    {room : Bool} (hne : e ≠ fs)
    (hsend : ipcTrySend s e fs value src perm room = .ok s') :
    FsipcInv fs (s'.number e value) ∧
      (∀ v, src = some v → HasFlag perm pteP →
        InService fs (s'.number e value) e s.count) := by
  obtain ⟨-, hrecv, hacc⟩ := ipcTrySend_ok hsend
  have hkeeps := hacc.keeps
  obtain ⟨hsender, hvalue⟩ := hacc.message
  obtain ⟨hreceives, hdst⟩ := h.server.receiving hrecv
  have hcount : s'.count = s.count := hkeeps.count
  have hnone : ∀ x n, ¬ InService fs s x n := by
    intro x n hin
    cases hin with
    | receives _ hno _ _ _ => simp [hrecv] at hno
    | handles hs => simp [hreceives] at hs
    | replies hs => simp [hreceives] at hs
    | panicked hs => simp [hreceives] at hs
  have hext : Extends s (s'.number e value) := by
    refine ⟨fun n a hn => ?_, fun n a hn => ?_⟩
    · change Function.update s'.asked s'.count _ n = some a
      have hold : n ≠ s'.count := by
        rintro rfl
        rw [hcount, (h.later _ (Nat.le_refl _)).1] at hn
        cases hn
      rw [Function.update_of_ne hold, hkeeps.asked]
      exact hn
    · change s'.answered n = some a
      rw [hkeeps.answered]
      exact hn
  have hserver' : s'.server = .receives := hkeeps.server.trans hreceives
  refine ⟨⟨fun x hx => ?_, ?_, ?_, ?_⟩, ?_⟩
  · exact (h.client x hx).mono hext (congrFun hkeeps.job x) (congrFun hkeeps.alive x)
      (hkeeps.box x hx) (hkeeps.space x hx) (fun n hin => absurd hin (hnone x n))
  · exact (congrFun hkeeps.job fs).trans h.idle
  · refine .receives hserver' ?_ (fun _ => ⟨Nat.succ_pos _, ?_, ?_, ?_⟩)
    · exact hkeeps.dstva.trans hdst
    · change (s'.box fs).sender ≠ fs
      rw [hsender]
      exact hne
    · change Function.update s'.asked s'.count _ (s'.count + 1 - 1) = some _
      rw [Nat.add_sub_cancel, Function.update_self]
      change some (e, value) = some ((s'.box fs).sender, (s'.box fs).value)
      rw [hsender, hvalue]
    · change s'.answered (s'.count + 1 - 1) = none
      rw [Nat.add_sub_cancel, hkeeps.answered, hcount]
      exact (h.later _ (Nat.le_refl _)).2
  · intro n hn
    change s'.count + 1 ≤ n at hn
    rw [hcount] at hn
    refine ⟨?_, ?_⟩
    · change Function.update s'.asked s'.count _ n = none
      rw [Function.update_of_ne (by omega), hkeeps.asked]
      exact (h.later n (by omega)).1
    · change s'.answered n = none
      rw [hkeeps.answered]
      exact (h.later n (by omega)).2
  · rintro v rfl hperm
    obtain ⟨p, hp⟩ := hacc.source rfl hdst
    refine .receives hserver' hkeeps.recving ?_ hsender ?_
    · change s.count + 1 = s'.count + 1
      rw [hcount]
    · change HasFlag (s'.box fs).perm pteP
      rw [(hacc.mapped rfl hdst hp).2]
      exact hperm

/-! ## Steps of the server -/

/-- Nothing that a client knows of changes. -/
theorem FsipcInv.serves (h : FsipcInv fs s) (hext : Extends s s')
    (hclient : ∀ x, x ≠ fs → s'.job x = s.job x ∧ s'.alive x = s.alive x ∧
      s'.box x = s.box x ∧ s'.space x = s.space x)
    (hserve : ∀ x n, x ≠ fs → InService fs s x n → InService fs s' x n)
    (hidle : s'.job fs = .idle) (hserver : ServerOk fs s')
    (hlater : ∀ n, s'.count ≤ n → s'.asked n = none ∧ s'.answered n = none) :
    FsipcInv fs s' where
  client := fun x hx => by
    obtain ⟨hjob, halive, hbox, hspace⟩ := hclient x hx
    exact (h.client x hx).mono hext hjob halive hbox hspace (hserve x · hx)
  idle := hidle
  server := hserver
  later := hlater

theorem FsipcInv.serveRecv (h : FsipcInv fs s) (hs : s.server = .listens) :
    FsipcInv fs { ipcRecv s fs (some fsreqPage) with server := .receives } := by
  refine h.serves (.of_eq rfl rfl) (fun x hx => ⟨rfl, rfl, Function.update_of_ne hx _ _, rfl⟩)
    (fun x n _ hin => ?_) h.idle ?_ h.later
  · cases hin with
    | receives hs' _ _ _ _ => simp [hs] at hs'
    | handles hs' => simp [hs] at hs'
    | replies hs' => simp [hs] at hs'
    | panicked hs' => simp [hs] at hs'
  · refine .receives rfl ?_ (fun hno => ?_)
    · simp [ipcRecv]
    · simp [ipcRecv] at hno

theorem FsipcInv.serveTake (h : FsipcInv fs s) (hs : s.server = .receives)
    (hrecv : (s.box fs).recving = false) :
    FsipcInv fs { s with
      server := .handles (s.count - 1) (s.box fs).sender (s.box fs).value
        (s.box fs).perm } := by
  refine h.serves (.of_eq rfl rfl) (fun x _ => ⟨rfl, rfl, rfl, rfl⟩)
    (fun x n _ hin => ?_) h.idle ?_ h.later
  · cases hin with
    | receives _ _ hn hsender _ =>
        obtain rfl : s.count - 1 = n := by omega
        subst hsender
        exact .handles rfl
    | handles hs' => simp [hs] at hs'
    | replies hs' => simp [hs] at hs'
    | panicked hs' => simp [hs] at hs'
  · cases h.server with
    | receives _ _ hgot =>
        obtain ⟨hpos, hne, hasked, hanswered⟩ := hgot hrecv
        exact .handles rfl hrecv (Nat.sub_lt hpos Nat.one_pos) hne hasked hanswered
    | listens hs' _ => simp [hs] at hs'
    | handles hs' _ _ _ _ _ => simp [hs] at hs'
    | replies hs' _ _ _ _ => simp [hs] at hs'
    | panicked hs' _ => simp [hs] at hs'

theorem FsipcInv.serveDrop (h : FsipcInv fs s) (hs : s.server = .receives)
    (hrecv : (s.box fs).recving = false) (hperm : ¬ HasFlag (s.box fs).perm pteP) :
    FsipcInv fs { s with server := .listens } := by
  refine h.serves (.of_eq rfl rfl) (fun x _ => ⟨rfl, rfl, rfl, rfl⟩)
    (fun x n _ hin => ?_) h.idle (.listens rfl hrecv) h.later
  cases hin with
  | receives _ _ _ _ hperm' => exact absurd hperm' hperm
  | handles hs' => simp [hs] at hs'
  | replies hs' => simp [hs] at hs'
  | panicked hs' => simp [hs] at hs'

theorem FsipcInv.serveHandle (h : FsipcInv fs s) {n whom : Nat} {req perm r perm' : U32}
    {pg : Option Nat} {m : Space} (hs : s.server = .handles n whom req perm) :
    FsipcInv fs { s.setSpace fs m with
      server := .replies n whom r pg perm'
      answered := Function.update s.answered n (some (r, pg.bind m.page)) } := by
  cases h.server with
  | handles hs' hrecv hn hwhom hasked hanswered =>
      rw [hs] at hs'
      cases hs'
      refine h.serves ⟨fun _ _ hx => hx, fun k a hk => ?_⟩
        (fun x hx => ⟨rfl, rfl, rfl, Function.update_of_ne hx _ _⟩)
        (fun x k _ hin => ?_) h.idle ?_ (fun k hk => ?_)
      · have hkn : k ≠ n := by
          rintro rfl
          simp [hanswered] at hk
        exact (Function.update_of_ne hkn _ _).trans hk
      · cases hin with
        | receives hs' _ _ _ _ => simp [hs] at hs'
        | handles hs' =>
            rw [hs] at hs'
            cases hs'
            exact .replies rfl
        | replies hs' => simp [hs] at hs'
        | panicked hs' => simp [hs] at hs'
      · refine .replies rfl hrecv hn hwhom ?_
        simp [IpcState.setSpace]
      · change s.count ≤ k at hk
        refine ⟨(h.later k hk).1, ?_⟩
        exact (Function.update_of_ne (by omega) _ _).trans (h.later k hk).2
  | listens hs' _ => simp [hs] at hs'
  | receives hs' _ _ => simp [hs] at hs'
  | replies hs' _ _ _ _ => simp [hs] at hs'
  | panicked hs' _ => simp [hs] at hs'

theorem FsipcInv.servePanics (h : FsipcInv fs s) {n whom : Nat} {r perm : U32}
    {pg : Option Nat} (hs : s.server = .replies n whom r pg perm) :
    FsipcInv fs { s with server := .panicked } := by
  have hrecv : (s.box fs).recving = false := by
    cases h.server with
    | replies _ hrecv _ _ _ => exact hrecv
    | listens _ hrecv => exact hrecv
    | receives hs' _ _ => simp [hs] at hs'
    | handles hs' _ _ _ _ _ => simp [hs] at hs'
    | panicked hs' _ => simp [hs] at hs'
  exact h.serves (.of_eq rfl rfl) (fun x _ => ⟨rfl, rfl, rfl, rfl⟩)
    (fun x n _ _ => .panicked rfl) h.idle (.panicked rfl hrecv) h.later

/-- The environment that asked has its reply. -/
theorem FsipcInv.gets (h : FsipcInv fs s) {n whom : Nat} {r perm : U32} {pg : Option Nat}
    (hwhom : whom ≠ fs) (hgets : (s.box whom).recving = true)
    (hacc : Accepted s fs whom r pg perm s')
    (hserve : ∀ k, InService fs s whom k → k = n)
    (hanswered : s.answered n = some (r, pg.bind (s.space fs).page)) {t : IpcState}
    (hjob : t.job whom = s.job whom) (hbox : t.box whom = s'.box whom)
    (hspace : t.space whom = s'.space whom) (hext : Extends s t) : ClientOk fs t whom := by
  have hkeeps := hacc.keeps
  obtain ⟨hsender, hvalue⟩ := hacc.message
  have hok := h.client whom hwhom
  unfold ClientOk at hok ⊢
  rw [hjob, hbox]
  cases hj : s.job whom with
  | idle => exact fun _ => hkeeps.recving
  | blocked => trivial
  | sends type dst => exact hkeeps.recving
  | sent k type dst =>
      rw [hj] at hok
      simp [hgets] at hok
  | waits k type dst =>
      rw [hj] at hok
      obtain ⟨hasked, hin, hdst⟩ := hok.1 hgets
      obtain rfl : k = n := hserve k hin
      refine ⟨fun hno => by simp [hkeeps.recving] at hno, fun _ =>
        ⟨hext.asked _ _ hasked, ?_, pg.bind (s.space fs).page, ?_, fun p d hp hd => ?_⟩⟩
      · rw [hbox, hsender]
      · rw [hvalue]
        exact hext.answered _ _ hanswered
      · rw [hspace]
        obtain ⟨v, hv, hpage⟩ := Option.bind_eq_some_iff.mp hp
        exact (hacc.mapped hv (hdst.trans hd) hpage).1
  | returns k type dst v =>
      rw [hj] at hok
      simp [hgets] at hok

/-- The reply goes to the environment that asked. -/
theorem FsipcInv.serveReply (h : FsipcInv fs s) {n whom : Nat} {r perm : U32}
    {pg : Option Nat} {room : Bool} (hs : s.server = .replies n whom r pg perm)
    (hsend : ipcTrySend s fs whom r pg perm room = .ok s') :
    FsipcInv fs { s'.setSpace fs ((s'.space fs).set fsreqPage none) with
      server := .listens } := by
  obtain ⟨halive, hgets, hacc⟩ := ipcTrySend_ok hsend
  have hkeeps := hacc.keeps
  cases h.server with
  | replies hs' hrecv hn hwhom hanswered =>
      rw [hs] at hs'
      cases hs'
      have hother : ∀ x k, InService fs s x k → x = whom ∧ k = n := by
        intro x k hin
        cases hin with
        | receives hs' _ _ _ _ => simp [hs] at hs'
        | handles hs' => simp [hs] at hs'
        | replies hs' =>
            rw [hs] at hs'
            cases hs'
            exact ⟨rfl, rfl⟩
        | panicked hs' => simp [hs] at hs'
      have hext : Extends s s' := .of_eq hkeeps.asked hkeeps.answered
      refine ⟨fun x hx => ?_, (congrFun hkeeps.job fs).trans h.idle, .listens rfl ?_, ?_⟩
      · have hspace : ({ s'.setSpace fs ((s'.space fs).set fsreqPage none) with
            server := ServeJob.listens } : IpcState).space x = s'.space x :=
          Function.update_of_ne hx _ _
        by_cases hxw : x = whom
        · subst hxw
          exact h.gets hx hgets hacc (fun k hin => (hother x k hin).2) hanswered
            (congrFun hkeeps.job x) rfl hspace ⟨hext.asked, hext.answered⟩
        · refine (h.client x hx).mono ⟨hext.asked, hext.answered⟩ (congrFun hkeeps.job x)
            (congrFun hkeeps.alive x) (hkeeps.box x hxw) (hspace.trans (hkeeps.space x hxw))
            (fun k hin => absurd (hother x k hin).1 hxw)
      · exact (congrArg IpcBox.recving (hkeeps.box fs (Ne.symm hwhom))).trans hrecv
      · change ∀ k, s'.count ≤ k → s'.asked k = none ∧ s'.answered k = none
        rw [hkeeps.count, hkeeps.asked, hkeeps.answered]
        exact h.later
  | listens hs' _ => simp [hs] at hs'
  | receives hs' _ _ => simp [hs] at hs'
  | handles hs' _ _ _ _ _ => simp [hs] at hs'
  | panicked hs' _ => simp [hs] at hs'

theorem FsipcInv.step (h : FsipcInv fs s) {ev : IpcEvent} (hstep : IpcStep fs s ev s')
    (hclean : ev.Clean s) : FsipcInv fs s' := by
  cases hstep with
  | @start e m hne _ =>
      refine h.elsewhere hne (((setAlive_elsewhere.trans ready_elsewhere).trans
        setSpace_elsewhere).trans setJob_elsewhere) ?_
      unfold ClientOk
      rw [setJob_self]
      simp [IpcState.setJob, IpcState.setSpace, IpcState.ready]
  | @exit e hne _ =>
      refine h.elsewhere hne (setAlive_elsewhere.trans setJob_elsewhere) ?_
      unfold ClientOk
      rw [setJob_self]
      simp [IpcState.setJob, IpcState.setAlive]
  | @map e m hne halive hj =>
      refine h.elsewhere hne setSpace_elsewhere ?_
      have hok := h.client e hne
      have hj' : (s.setSpace e m).job e = .idle := hj
      unfold ClientOk at hok ⊢
      rw [hj] at hok
      rw [hj']
      exact hok
  | @recv e dst hne _ _ =>
      refine h.elsewhere hne (ipcRecv_elsewhere.trans setJob_elsewhere) ?_
      unfold ClientOk
      rw [setJob_self]
      trivial
  | @wakes e hne _ _ hrecv =>
      refine h.elsewhere hne setJob_elsewhere ?_
      unfold ClientOk
      rw [setJob_self]
      exact fun _ => hrecv
  | send _ _ _ hdest hsend => exact h.send hdest hclean hsend
  | sendServer hne _ _ hsend => exact (h.asks hne hsend).1
  | @call e type dst hne halive hj =>
      refine h.elsewhere hne setJob_elsewhere ?_
      have hok := h.client e hne
      unfold ClientOk at hok ⊢
      rw [hj] at hok
      rw [setJob_self]
      exact hok halive
  | @request s₁ e v type dst room hne halive hj hsend =>
      obtain ⟨hinv, hin⟩ := h.asks hne hsend
      refine hinv.elsewhere hne setJob_elsewhere ?_
      have hkeeps := (ipcTrySend_ok hsend).2.2.keeps
      have hok := h.client e hne
      unfold ClientOk at hok ⊢
      rw [hj] at hok
      rw [setJob_self]
      refine ⟨?_, ?_, setJob_elsewhere.inService hne (hin v rfl (by decide))⟩
      · change (s₁.box e).recving = false
        rw [hkeeps.box e hne]
        exact hok
      · change Function.update s₁.asked s₁.count _ s.count = _
        rw [hkeeps.count, Function.update_self]
  | @requestPanics e _ _ hne _ _ =>
      refine h.elsewhere hne (setAlive_elsewhere.trans setJob_elsewhere) ?_
      unfold ClientOk
      rw [setJob_self]
      simp [IpcState.setJob, IpcState.setAlive]
  | @receive e n type dst hne _ hj =>
      have helse : Elsewhere s ((ipcRecv s e dst).setJob e (.waits n type dst)) e :=
        ipcRecv_elsewhere.trans setJob_elsewhere
      refine h.elsewhere hne helse ?_
      have hok := h.client e hne
      unfold ClientOk at hok ⊢
      rw [hj] at hok
      rw [setJob_self]
      obtain ⟨-, hasked, hin⟩ := hok
      refine ⟨fun _ => ⟨hasked, helse.inService hne hin, ?_⟩, fun hno => ?_⟩
      · simp [IpcState.setJob, ipcRecv]
      · simp [IpcState.setJob, ipcRecv] at hno
  | @reads e n type dst hne _ hj hrecv =>
      refine h.elsewhere hne setJob_elsewhere ?_
      have hok := h.client e hne
      unfold ClientOk at hok ⊢
      rw [hj] at hok
      rw [setJob_self]
      exact ⟨hrecv, (hok.2 hrecv).mono (.of_eq rfl rfl) rfl rfl⟩
  | @ret e n type v dst hne _ hj =>
      refine h.elsewhere hne setJob_elsewhere ?_
      have hok := h.client e hne
      unfold ClientOk at hok ⊢
      rw [hj] at hok
      rw [setJob_self]
      exact fun _ => hok.1
  | serveRecv hs => exact h.serveRecv hs
  | serveTake hs hrecv _ => exact h.serveTake hs hrecv
  | serveDrop hs hrecv hperm => exact h.serveDrop hs hrecv hperm
  | serveHandle hs _ => exact h.serveHandle hs
  | serveReply hs hsend => exact h.serveReply hs hsend
  | servePanics hs => exact h.servePanics hs

/-- In a run in which nobody but the server sends to an environment that waits in
`fsipc`, what `fsipc` returns is the server's reply to its own request. -/
theorem fsipc_sound {s₀ : IpcState} (hstart : ServeStart fs s₀)
    (hrun : ReflTransGen (fun s s' => ∃ ev, IpcEvent.Clean s ev ∧ IpcStep fs s ev s') s₀ s) :
    FsipcSound fs s := by
  have hinv : FsipcInv fs s := by
    induction hrun with
    | refl => exact hstart.inv
    | tail _ hstep ih =>
        obtain ⟨ev, hclean, hstep⟩ := hstep
        exact ih.step hstep hclean
  exact hinv.sound

end Invariant

/-! ## A message from a third environment -/

section Example

variable {s : IpcState} {cur dest : Nat} {value perm : U32}

theorem ipcTrySend_plain (halive : s.alive dest = true) (hrecv : (s.box dest).recving = true) :
    ipcTrySend s cur dest value none perm true =
      .ok (s.accept cur dest value (s.box dest).perm (s.space dest)) := by
  unfold ipcTrySend
  rw [if_neg (by simp [halive]), if_neg (by simp [hrecv])]

theorem ipcTrySend_page {v d : Nat} {w : UserPte} (halive : s.alive dest = true)
    (hrecv : (s.box dest).recving = true) (hw : s.space cur v = some w)
    (hsub : w.perm &&& perm &&& 7#32 = perm &&& 7#32)
    (hwrite : HasFlag perm pteW → HasFlag w.perm pteW)
    (hd : (s.box dest).dstva = some d) :
    ipcTrySend s cur dest value (some v) perm true = .ok (s.accept cur dest value perm
      ((s.space dest).set d (some ⟨w.page, perm ||| pteP⟩))) := by
  unfold ipcTrySend
  rw [if_neg (by simp [halive]), if_neg (by simp [hrecv])]
  simp only [hw]
  rw [if_neg (by simp [hsub]), if_neg (fun h => h.2 (hwrite h.1))]
  simp only [hd, if_true]

/-- The server, a client and a third environment; the client's `fsipcbuf` is at page
`0x800`. -/
def ipcStart : IpcState where
  alive := fun e => decide (e ≤ 2)
  box := fun _ => ⟨false, none, 0, 0#32, 0#32⟩
  space := fun e v => if e = 1 ∧ v = 0x800 then some ⟨7, 7#32⟩ else none
  job := fun _ => .idle
  server := .listens
  count := 0
  asked := fun _ => none
  answered := fun _ => none

theorem ipcStart_serveStart : ServeStart 0 ipcStart where
  server := rfl
  ready := rfl
  idle := fun _ => rfl
  awake := fun _ _ => rfl
  asked := fun _ => rfl
  answered := fun _ => rfl

/-- The client is in `fsipc`, and the server in `ipc_recv`. -/
def ipcCalled : IpcState :=
  { ipcRecv (ipcStart.setJob 1 (.sends fsreqOpen (some 0xD0000))) 0 (some fsreqPage) with
    server := .receives }

/-- The server has the request. -/
def ipcAsked : IpcState :=
  ((ipcCalled.accept 1 0 fsreqOpen 7#32 ((ipcCalled.space 0).set fsreqPage
    (some ⟨7, 7#32⟩))).number 1 fsreqOpen).setJob 1 (.sent 0 fsreqOpen (some 0xD0000))

/-- The client waits for a page at its first descriptor. -/
def ipcWaiting : IpcState :=
  (ipcRecv ipcAsked 1 (some 0xD0000)).setJob 1 (.waits 0 fsreqOpen (some 0xD0000))

theorem work_step {fs e : Nat} {s s' : IpcState} (hstep : IpcStep fs s (.work e) s') :
    ∃ ev, IpcEvent.Clean s ev ∧ IpcStep fs s ev s' := by
  refine ⟨.work e, ?_, hstep⟩
  unfold IpcEvent.Clean
  trivial

theorem ipcWaiting_run : ReflTransGen
    (fun s s' => ∃ ev, IpcEvent.Clean s ev ∧ IpcStep 0 s ev s') ipcStart ipcWaiting := by
  have hcall : IpcStep 0 ipcStart (.work 1)
      (ipcStart.setJob 1 (.sends fsreqOpen (some 0xD0000))) :=
    .call (by decide) rfl rfl
  have hlisten : IpcStep 0 (ipcStart.setJob 1 (.sends fsreqOpen (some 0xD0000))) (.work 0)
      ipcCalled := .serveRecv rfl
  have hsend : ipcTrySend ipcCalled 1 0 fsreqOpen (some 0x800) (pteP ||| pteW ||| pteU) true =
      .ok (ipcCalled.accept 1 0 fsreqOpen 7#32 ((ipcCalled.space 0).set fsreqPage
        (some ⟨7, 7#32⟩))) :=
    ipcTrySend_page (w := ⟨7, 7#32⟩) rfl rfl rfl rfl (fun h => h) rfl
  have hask : IpcStep 0 ipcCalled (.work 1) ipcAsked :=
    .request (by decide) rfl rfl hsend
  have hwait : IpcStep 0 ipcAsked (.work 1) ipcWaiting :=
    .receive (by decide) rfl rfl
  exact .head (work_step hcall) (.head (work_step hlisten)
    (.head (work_step hask) (.single (work_step hwait))))

/-- The third environment sends to the client, which takes that for the reply. -/
theorem not_fsipc_sound : ¬ ∀ (fs : Nat) (s₀ s : IpcState), ServeStart fs s₀ →
    ReflTransGen (fun s s' => ∃ ev, IpcStep fs s ev s') s₀ s → FsipcSound fs s := by
  intro hall
  let s₁ := ipcWaiting.accept 2 1 42#32 0#32 (ipcWaiting.space 1)
  let s₂ := s₁.setJob 1 (.returns 0 fsreqOpen (some 0xD0000) 42#32)
  have hplain : ipcTrySend ipcWaiting 2 1 42#32 none 0#32 true = .ok s₁ :=
    ipcTrySend_plain rfl rfl
  have hsend : IpcStep 0 ipcWaiting (.send 2 1) s₁ :=
    .send (by decide) rfl rfl (by decide) hplain
  have hread : IpcStep 0 s₁ (.work 1) s₂ := .reads (by decide) rfl rfl rfl
  have hrun : ReflTransGen (fun s s' => ∃ ev, IpcStep 0 s ev s') ipcStart ipcWaiting :=
    ReflTransGen.mono (fun _ _ ⟨ev, _, h⟩ => ⟨ev, h⟩) _ _ ipcWaiting_run
  have hsound := hall 0 ipcStart s₂ ipcStart_serveStart
    ((hrun.tail ⟨_, hsend⟩).tail ⟨_, hread⟩)
  have hsender := (hsound 1 0 fsreqOpen (some 0xD0000) 42#32 setJob_self).sender
  exact absurd hsender (by decide)

/-- The server opens the file and sends the client the page that it maps at `0xD0000`
itself. -/
theorem fsipc_sound_open : ∃ s, s.job 1 = .returns 0 fsreqOpen (some 0xD0000) 0#32 ∧
    FsipcSound 0 s := by
  let m : Space := fun v => if v = 0xD0000 then some ⟨9, 7#32⟩ else none
  let s₁ : IpcState := { ipcWaiting with
    server := .handles 0 1 fsreqOpen 7#32 }
  let s₂ : IpcState := { s₁.setSpace 0 m with
    server := .replies 0 1 0#32 (some 0xD0000) 7#32
    answered := Function.update s₁.answered 0 (some (0#32, some 9)) }
  let s₃ := s₂.accept 0 1 0#32 7#32 ((s₂.space 1).set 0xD0000 (some ⟨9, 7#32⟩))
  let s₄ : IpcState := { s₃.setSpace 0 ((s₃.space 0).set fsreqPage none) with
    server := .listens }
  have htake : IpcStep 0 ipcWaiting (.work 0) s₁ := .serveTake rfl rfl (by decide)
  have hhandle : IpcStep 0 s₁ (.work 0) s₂ := .serveHandle rfl (by decide)
  have hsend : ipcTrySend s₂ 0 1 0#32 (some 0xD0000) 7#32 true = .ok s₃ :=
    ipcTrySend_page (w := ⟨9, 7#32⟩) rfl rfl rfl rfl (fun h => h) rfl
  have hreply : IpcStep 0 s₂ (.work 0) s₄ := .serveReply rfl hsend
  have hread : IpcStep 0 s₄ (.work 1)
      (s₄.setJob 1 (.returns 0 fsreqOpen (some 0xD0000) 0#32)) :=
    .reads (by decide) rfl rfl rfl
  refine ⟨_, setJob_self, fsipc_sound ipcStart_serveStart ((((ipcWaiting_run.tail
    (work_step htake)).tail (work_step hhandle)).tail (work_step hreply)).tail
    (work_step hread))⟩

end Example

end Jos

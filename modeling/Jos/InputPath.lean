import Jos.NetworkCard

/-!
# `net/input.c`: the page of a packet

The input environment copies a packet into a page, sends the page to the network server
and sleeps; the server reads the packet later, from the same page.  Nothing but the sleep
keeps the next packet from coming into the page before that.

A request is pending from the message on until `low_level_input` has copied its last
byte, or has found no memory.
-/

namespace Jos

open Bytes

/-- `&nsipcbuf.pkt.jp_len`, in its page. -/
def jpLenVa : Nat := 0

/-- `nsipcbuf.pkt.jp_data`. -/
def jpDataVa : Nat := 4

/-- Where `input` is. -/
inductive InputAt where
  /-- In the loop with `sys_pkt_recv`. -/
  | recv
  /-- In `memcpy`, before byte `i`. -/
  | copy (buf : List U8) (i : Nat)
  | setLen (buf : List U8)
  /-- In `ipc_send`. -/
  | send (buf : List U8)
  /-- Before `sleep(50)`. -/
  | sent
  | sleep (till : U32)
  /-- `sleep` has panicked. -/
  | panicked

/-- Where `low_level_input` is; the bytes `got` are copied. -/
inductive InputRead where
  | begin
  | copying (len : Nat) (got : List U8)

/-- A request that is not done, and the packet of its message. -/
structure InputRequest where
  packet : List U8
  loc : InputRead

/-- The page, the time, the input environment, the requests of the server, what was
copied for those that are done, and whether a store came while one was pending. -/
structure InputRun where
  page : Bytes.Memory
  now : U32
  input : InputAt
  pending : List InputRequest
  done : List (List U8 × Option (List U8))
  spoiled : Bool

inductive InputEvent where
  | tick
  /-- `sys_pkt_recv` returns a packet. -/
  | recv (p : Packet)
  /-- The next step of the input environment. -/
  | input
  /-- The server receives the message. -/
  | deliver
  /-- The next step of `low_level_input` for request `k`; `pbuf_alloc` may fail. -/
  | read (k : Nat) (ok : Bool)

namespace InputRun

/-- The input environment stores to the page. -/
def store (r : InputRun) (v : Bytes.Memory) : InputRun :=
  { r with page := v, spoiled := r.spoiled || !r.pending.isEmpty }

/-- `pkt->jp_len`, in an `s16_t`. -/
def jpLen (r : InputRun) : Nat := ((word r.page jpLenVa).setWidth 16).toInt.toNat

/-- The next step of `input`. -/
def inputStep (r : InputRun) : InputRun :=
  match r.input with
  | .copy buf i =>
      if i < buf.length then
        { r.store (Function.update r.page (jpDataVa + i) (buf.getD i 0#8)) with
          input := .copy buf (i + 1) }
      else { r with input := .setLen buf }
  | .setLen buf =>
      { r.store (setWord r.page jpLenVa (BitVec.ofNat 32 buf.length)) with input := .send buf }
  | .sent =>
      let till := r.now + 50#32
      if till < r.now then { r with input := .panicked } else { r with input := .sleep till }
  | .sleep till => if r.now < till then r else { r with input := .recv }
  | _ => r

/-- The next step of `low_level_input` for request `k`. -/
def readStep (r : InputRun) (k : Nat) (ok : Bool) : InputRun :=
  match r.pending[k]? with
  | none => r
  | some ⟨packet, .begin⟩ =>
      if ok then { r with pending := r.pending.set k ⟨packet, .copying r.jpLen []⟩ }
      else
        { r with
          pending := r.pending.eraseIdx k
          done := r.done ++ [(packet, none)] }
  | some ⟨packet, .copying len got⟩ =>
      if got.length < len then
        { r with
          pending := r.pending.set k
            ⟨packet, .copying len (got ++ [r.page (jpDataVa + got.length)])⟩ }
      else
        { r with
          pending := r.pending.eraseIdx k
          done := r.done ++ [(packet, some got)] }

def step (r : InputRun) : InputEvent → InputRun
  | .tick => { r with now := r.now + 10#32 }
  | .recv p =>
      match r.input with
      | .recv => { r with input := .copy p.bytes 0 }
      | _ => r
  | .input => r.inputStep
  | .deliver =>
      match r.input with
      | .send buf => { r with input := .sent, pending := r.pending ++ [⟨buf, .begin⟩] }
      | _ => r
  | .read k ok => r.readStep k ok

def start : InputRun := ⟨fun _ => 0#8, 0#32, .recv, [], [], false⟩

end InputRun

/-- The server has read a packet to its end when the next one is received. -/
def InputClean (r : InputRun) : InputEvent → Prop
  | .recv _ => r.input = .recv → r.pending = []
  | _ => True

/-- The states of the runs whose events meet a condition. -/
inductive InputReached (ok : InputRun → InputEvent → Prop) : InputRun → Prop where
  | start : InputReached ok .start
  | step {r : InputRun} {ev : InputEvent} :
      InputReached ok r → ok r ev → InputReached ok (r.step ev)

/-- What was copied is the packet of the message, and no store came in between. -/
structure InputSound (r : InputRun) : Prop where
  copied : ∀ d, d ∈ r.done → ∀ bytes, d.2 = some bytes → bytes = d.1
  unspoiled : r.spoiled = false

/-! ## The invariant -/

/-- A packet is in the page. -/
structure HasPacket (page : Bytes.Memory) (p : List U8) : Prop where
  fits : p.length ≤ rxPktSize
  len : word page jpLenVa = BitVec.ofNat 32 p.length
  data : bytesAt page jpDataVa p.length = p

/-- How far a request is. -/
def InputRead.Ok (p : List U8) : InputRead → Prop
  | begin => True
  | copying len got => len = p.length ∧ got.length ≤ p.length ∧ got = p.take got.length

/-- How far the input environment is; while it stores, no request is pending. -/
def InputAt.Ok (page : Bytes.Memory) (pending : List InputRequest) : InputAt → Prop
  | copy buf i =>
      pending = [] ∧ buf.length ≤ rxPktSize ∧ i ≤ buf.length ∧
        bytesAt page jpDataVa i = buf.take i
  | setLen buf => pending = [] ∧ buf.length ≤ rxPktSize ∧ bytesAt page jpDataVa buf.length = buf
  | send buf => pending = [] ∧ HasPacket page buf
  | _ => True

/-- If a request is pending, then the input environment is not storing. -/
theorem InputAt.Ok.busy {loc : InputAt} {page : Bytes.Memory} {pending pending' : List InputRequest}
    (h : loc.Ok page pending) (hbusy : pending ≠ []) : loc.Ok page pending' := by
  cases loc with
  | copy buf i => exact absurd h.1 hbusy
  | setLen buf => exact absurd h.1 hbusy
  | send buf => exact absurd h.1 hbusy
  | _ => trivial

structure InputInv (r : InputRun) : Prop where
  input : r.input.Ok r.page r.pending
  pending : ∀ q, q ∈ r.pending → HasPacket r.page q.packet ∧ q.loc.Ok q.packet
  copied : ∀ d, d ∈ r.done → ∀ bytes, d.2 = some bytes → bytes = d.1
  unspoiled : r.spoiled = false

section Steps

variable {r : InputRun} {buf : List U8} {i k : Nat} {ok : Bool}

theorem InputInv.start : InputInv .start where
  input := trivial
  pending := fun _ hq => absurd hq List.not_mem_nil
  copied := fun _ hd => absurd hd List.not_mem_nil
  unspoiled := rfl

/-- The length is read as it was stored. -/
theorem HasPacket.jpLen (h : HasPacket r.page buf) : r.jpLen = buf.length := by
  have hlt : buf.length < 2 ^ 15 := by
    have hfits := h.fits
    unfold rxPktSize at hfits
    omega
  have hlen : ((word r.page jpLenVa).setWidth 16).toNat = buf.length := by
    rw [h.len, BitVec.toNat_setWidth, BitVec.toNat_ofNat]
    omega
  unfold InputRun.jpLen
  rw [BitVec.toInt_eq_toNat_of_lt (by omega), hlen]
  rfl

/-- A store does no harm if no request is pending. -/
theorem InputInv.store (h : InputInv r) (hidle : r.pending = []) :
    (r.spoiled || !r.pending.isEmpty) = false := by
  simp [h.unspoiled, hidle]

theorem InputInv.input_step (h : InputInv r) : InputInv r.inputStep := by
  have hinput := h.input
  unfold InputRun.inputStep
  cases hloc : r.input with
  | copy buf i =>
      rw [hloc] at hinput
      obtain ⟨hidle, hfits, hle, hdata⟩ := hinput
      dsimp only
      split
      · rename_i hlt
        refine ⟨⟨hidle, hfits, hlt, ?_⟩, fun q hq => ?_, h.copied,
          h.store hidle⟩
        · have hbefore : bytesAt (Function.update r.page (jpDataVa + i) (buf.getD i 0#8))
              jpDataVa i = bytesAt r.page jpDataVa i :=
            bytesAt_congr (fun x _ hx => update_of_apart (by omega))
          change bytesAt (Function.update r.page (jpDataVa + i) (buf.getD i 0#8)) _ _ = _
          rw [bytesAt_succ, hbefore, hdata, Function.update_self,
            List.take_succ_eq_append_getElem hlt, List.getD_eq_getElem _ _ hlt]
        · change q ∈ r.pending at hq
          rw [hidle] at hq
          exact absurd hq List.not_mem_nil
      · rename_i hge
        obtain rfl : i = buf.length := Nat.le_antisymm hle (Nat.le_of_not_lt hge)
        rw [List.take_length] at hdata
        exact ⟨⟨hidle, hfits, hdata⟩, h.pending, h.copied, h.unspoiled⟩
  | setLen buf =>
      rw [hloc] at hinput
      obtain ⟨hidle, hfits, hdata⟩ := hinput
      refine ⟨⟨hidle, hfits, word_setWord_self, ?_⟩, fun q hq => ?_, h.copied,
        h.store hidle⟩
      · refine Eq.trans (bytesAt_congr (fun x hx _ => setWord_of_apart ?_)) hdata
        exact Or.inr hx
      · change q ∈ r.pending at hq
        rw [hidle] at hq
        exact absurd hq List.not_mem_nil
  | sent =>
      dsimp only
      split
      · exact ⟨trivial, h.pending, h.copied, h.unspoiled⟩
      · exact ⟨trivial, h.pending, h.copied, h.unspoiled⟩
  | sleep till =>
      dsimp only
      split
      · exact h
      · exact ⟨trivial, h.pending, h.copied, h.unspoiled⟩
  | _ => exact h

/-- A request that is pending gets on. -/
theorem InputInv.reads (h : InputInv r) {p : List U8} {loc loc' : InputRead}
    (hk : r.pending[k]? = some ⟨p, loc⟩) (hok : loc'.Ok p) :
    InputInv { r with pending := r.pending.set k ⟨p, loc'⟩ } := by
  have hmem := List.mem_of_getElem? hk
  refine ⟨h.input.busy (List.ne_nil_of_mem hmem), fun q hq => ?_, h.copied, h.unspoiled⟩
  rcases List.mem_or_eq_of_mem_set hq with hq | rfl
  · exact h.pending q hq
  · exact ⟨(h.pending _ hmem).1, hok⟩

/-- A request is done. -/
theorem InputInv.finishes (h : InputInv r) {p : List U8} {loc : InputRead}
    {result : Option (List U8)} (hk : r.pending[k]? = some ⟨p, loc⟩)
    (hresult : ∀ bytes, result = some bytes → bytes = p) :
    InputInv { r with
      pending := r.pending.eraseIdx k
      done := r.done ++ [(p, result)] } := by
  have hmem := List.mem_of_getElem? hk
  refine ⟨h.input.busy (List.ne_nil_of_mem hmem),
    fun q hq => h.pending q (List.mem_of_mem_eraseIdx hq), fun d hd => ?_, h.unspoiled⟩
  rcases List.mem_append.mp hd with hd | hd
  · exact h.copied d hd
  · rw [List.mem_singleton.mp hd]
    exact hresult

theorem InputInv.read_step (h : InputInv r) : InputInv (r.readStep k ok) := by
  unfold InputRun.readStep
  cases hk : r.pending[k]? with
  | none => exact h
  | some q =>
      obtain ⟨p, loc⟩ := q
      obtain ⟨hpage, hloc⟩ := h.pending _ (List.mem_of_getElem? hk)
      cases loc with
      | begin =>
          dsimp only
          split
          · exact h.reads hk ⟨hpage.jpLen, Nat.zero_le _, rfl⟩
          · exact h.finishes hk (fun bytes hno => nomatch hno)
      | copying len got =>
          change HasPacket r.page p at hpage
          obtain ⟨hlen, hle, hgot⟩ : len = p.length ∧ got.length ≤ p.length ∧
            got = p.take got.length := hloc
          have hbytes : ∀ n, n ≤ p.length → p.take n = bytesAt r.page jpDataVa n := by
            intro n hn
            rw [← bytesAt_take hn, hpage.data]
          dsimp only
          split
          · rename_i hlt
            have hnext : (got ++ [r.page (jpDataVa + got.length)]).length = got.length + 1 := by
              simp
            refine h.reads hk ⟨hlen, by omega, ?_⟩
            rw [hnext, hbytes _ (by omega), bytesAt_succ, ← hbytes _ hle, ← hgot]
          · rename_i hge
            refine h.finishes hk (fun bytes hsome => ?_)
            rw [← Option.some.inj hsome, hgot, List.take_of_length_le (by omega)]

theorem InputInv.step (h : InputInv r) {ev : InputEvent} (hclean : InputClean r ev) :
    InputInv (r.step ev) := by
  cases ev with
  | tick => exact ⟨h.input, h.pending, h.copied, h.unspoiled⟩
  | recv p =>
      unfold InputRun.step
      cases hloc : r.input with
      | recv => exact ⟨⟨hclean hloc, p.fits, Nat.zero_le _, rfl⟩, h.pending, h.copied, h.unspoiled⟩
      | _ => exact h
  | input => exact h.input_step
  | deliver =>
      unfold InputRun.step
      cases hloc : r.input with
      | send buf =>
          have hinput := h.input
          rw [hloc] at hinput
          obtain ⟨hidle, hpage⟩ := hinput
          refine ⟨trivial, fun q hq => ?_, h.copied, h.unspoiled⟩
          rcases List.mem_append.mp hq with hq | hq
          · exact h.pending q hq
          · rw [List.mem_singleton.mp hq]
            exact ⟨hpage, trivial⟩
      | _ => exact h
  | read k ok => exact h.read_step

theorem InputInv.reached (h : InputReached InputClean r) : InputInv r := by
  induction h with
  | start => exact InputInv.start
  | step _ hclean ih => exact ih.step hclean

end Steps

end Jos

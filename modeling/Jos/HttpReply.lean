import Jos.HttpRequest
import Jos.Lib.Prog
import Jos.Printfmt

/-!
# Answers of the web server, `send_file` of `user/httpd.c`

`send_file` tells the client the length of the file from a variable that is never set, and
hands the whole file to the socket at once, where `nsipc_send` takes less than 1600 bytes.
-/

namespace Jos

namespace Httpd

open Programs

/-- The bytes of a text. -/
def text (s : String) : List U8 := s.toList.map byte

/-- A file or directory of the file server. -/
structure Node where
  isDir : Bool
  data : List U8

/-- What has been given to the socket. -/
structure Conn where
  sent : List U8

/-- `PGSIZE`. -/
def pgsize : Nat := 4096

/-- `headers`. -/
def headers : List (Nat × List U8) :=
  [(200, text "HTTP/1.0 200 OK\r\nServer: jhttpd/0.1\r\n")]

/-- `errors`. -/
def errors : List (Nat × List U8) := [(400, text "Bad Request"), (404, text "Not Found")]

/-- `write(req->sock, data, n)`: the socket takes everything that gets past the assertion of
`nsipc_send`. -/
def write (data : List U8) : Prog Conn Int :=
  if data.length < 1600 then do
    Prog.modify (fun s => { s with sent := s.sent ++ data })
    pure data.length
  else Prog.stop

/-- `if (write(req->sock, data, n) != n) return -1; return 0;` -/
def writeAll (data : List U8) : Prog Conn Int := do
  let r ← write data
  if r ≠ data.length then pure (-1) else pure 0

/-- `send_header`. -/
def sendHeader (code : Nat) : Prog Conn Int :=
  match headers.find? (fun h => h.1 = code) with
  | none => pure (-1)
  | some h => do
      let r ← write h.2
      -- die
      if r ≠ h.2.length then Prog.exit else pure 0

/-- The call of `vprintfmt` for `"Content-Length: %ld\r\n"`. -/
def sizeCall (size : BitVec 32) : Printfmt.Call :=
  Printfmt.callOf ⟨text "Content-Length: ", by decide⟩ ⟨.none, .none, .long, .d, size⟩
    ⟨text "\r\n", by decide⟩ (fun _ => [])

/-- `send_size`. -/
def sendSize (fuel : Nat) (size : BitVec 32) : Prog Conn Int :=
  match Printfmt.vprintfmt (sizeCall size) fuel with
  | none => Prog.stop
  | some out =>
      -- buffer too small!
      if 63 < out.length then Prog.stop else writeAll (out.map (BitVec.ofInt 8))

/-- `send_content_type`. -/
def sendContentType : Prog Conn Int := writeAll (text "Content-Type: text/html\r\n")

/-- `send_header_fin`. -/
def sendHeaderFin : Prog Conn Int := writeAll (text "\r\n")

/-- `send_error`. -/
def sendError (code : Nat) : Prog Conn Int :=
  match errors.find? (fun e => e.1 = code) with
  | none => pure (-1)
  | some e => writeAll (text "HTTP/1.0 " ++ (Nat.toDigits 10 e.1).map byte ++ text " " ++ e.2 ++
      text "\r\nServer: jhttpd/0.1\r\nConnection: closeContent-type: text/html\r\n\r\n" ++
      text "<html><body><p>" ++ (Nat.toDigits 10 e.1).map byte ++ text " - " ++ e.2 ++
      text "</p></body></html>\r\n")

/-- `readn(fd, buf, n)` from place `tot` of the file on: `read` returns a page at most. -/
def readn (data : List U8) (n : Nat) : Nat → Nat → List U8
  | 0, _ => []
  | fuel + 1, tot =>
      if tot < n then
        let m := (data.drop tot).take (min (n - tot) pgsize)
        if m.length = 0 then [] else m ++ readn data n fuel (tot + m.length)
      else []

/-- `send_data`. -/
def sendData (file : Node) : Prog Conn Int := do
  let size := file.data.length
  let buf := readn file.data size (size + 1) 0
  if buf.length ≠ size then Prog.stop
  else do
    let r ← write buf
    if r ≠ size then Prog.stop else pure 0

/-- `send_file`, for a file server with these files.  `r` is what the variable `r` has on the
stack. -/
def sendFile (files : List U8 → Option Node) (fuel : Nat) (r : Int) (url : List U8) :
    Prog Conn Int :=
  let fileSize : BitVec 32 := -1
  match files url with
  | none => do
      let _ ← sendError 404
      pure r
  | some file =>
      if file.isDir then do
        let _ ← sendError 404
        pure r
      else do
        let r ← sendHeader 200
        if r < 0 then pure r
        else do
          let r ← sendSize fuel fileSize
          if r < 0 then pure r
          else do
            let r ← sendContentType
            if r < 0 then pure r
            else do
              let r ← sendHeaderFin
              if r < 0 then pure r else sendData file

/-- What a client should get for a file. -/
def answer (data : List U8) : List U8 :=
  text "HTTP/1.0 200 OK\r\nServer: jhttpd/0.1\r\n" ++
    (text "Content-Length: " ++ ((Nat.toDigits 10 data.length).map byte ++ (text "\r\n" ++
      (text "Content-Type: text/html\r\n" ++ (text "\r\n" ++ data)))))

/-- `send_file` returns, and the client has got the file. -/
def Serves (files : List U8 → Option Node) (fuel : Nat) (r : Int) (url data : List U8)
    (s : Conn) : Prop :=
  ∃ r' s', (sendFile files fuel r url).run s = .ret r' s' ∧ s'.sent = s.sent ++ answer data

/-! ## What is sent -/

section Runs

variable {s : Conn} {data : List U8}

/-- The bytes are behind what was sent. -/
def Conn.send (s : Conn) (data : List U8) : Conn := ⟨s.sent ++ data⟩

theorem write_run (h : data.length < 1600) :
    (write data).run s = .ret data.length (s.send data) := by
  unfold write
  rw [if_pos h]
  rfl

theorem write_stop (h : ¬ data.length < 1600) : (write data).run s = .stop s := by
  unfold write
  rw [if_neg h]
  rfl

theorem writeAll_run (h : data.length < 1600) : (writeAll data).run s = .ret 0 (s.send data) := by
  unfold writeAll
  rw [Prog.run_bind_ret (write_run h), if_neg (fun hne => hne rfl)]
  rfl

theorem sendHeader_run : (sendHeader 200).run s =
    .ret 0 (s.send (text "HTTP/1.0 200 OK\r\nServer: jhttpd/0.1\r\n")) := by
  have hfind : headers.find? (fun h => h.1 = 200) =
      some (200, text "HTTP/1.0 200 OK\r\nServer: jhttpd/0.1\r\n") := rfl
  unfold sendHeader
  rw [hfind]
  dsimp only
  rw [Prog.run_bind_ret (write_run (by decide)), if_neg (fun hne => hne rfl)]
  rfl

theorem readn_eq {fuel tot : Nat} (hle : tot ≤ data.length) (hfuel : data.length - tot < fuel) :
    readn data data.length fuel tot = data.drop tot := by
  induction fuel generalizing tot with
  | zero => omega
  | succ fuel ih =>
      rw [readn]
      by_cases hlt : tot < data.length
      · have hlen : ((data.drop tot).take (min (data.length - tot) pgsize)).length =
            min (data.length - tot) pgsize := by
          rw [List.length_take, List.length_drop]
          omega
        have hpos : 0 < min (data.length - tot) pgsize := by
          unfold pgsize
          omega
        rw [if_pos hlt]
        dsimp only
        rw [hlen, if_neg (by omega), ih (by omega) (by omega), ← List.drop_drop,
          List.take_append_drop]
      · rw [if_neg hlt, List.drop_eq_nil_of_le (by omega)]

theorem sendData_run (isDir : Bool) : (sendData ⟨isDir, data⟩).run s =
    if data.length < 1600 then .ret 0 (s.send data) else .stop s := by
  have hbuf : readn data data.length (data.length + 1) 0 = data :=
    (readn_eq (Nat.zero_le _) (by omega)).trans List.drop_zero
  unfold sendData
  dsimp only
  rw [hbuf, if_neg (fun hne => hne rfl)]
  split
  · next hlt =>
      rw [Prog.run_bind_ret (write_run hlt), if_neg (fun hne => hne rfl)]
      rfl
  · next hge =>
      rw [Prog.run_bind, write_stop hge]

/-- `Content-Length: -1`. -/
def sizeLine : List U8 := text "Content-Length: " ++ ([byte '-', byte '1'] ++ text "\r\n")

/-- `%ld` for -1. -/
def minusOne : Printfmt.Directive := ⟨.none, .none, .long, .d, (-1 : BitVec 32)⟩

theorem printed_minusOne : minusOne.printed = [Printfmt.code '-', Printfmt.code '1'] := by
  have hmagnitude : minusOne.magnitude = 1 := by decide
  have hdigits : minusOne.digits = [Printfmt.code '1'] := by
    unfold Printfmt.Directive.digits
    rw [hmagnitude, Nat.toDigits_of_lt_base (by decide)]
    rfl
  unfold Printfmt.Directive.printed
  rw [hdigits]
  decide

theorem sendSize_run {fuel : Nat} {out : List Int}
    (h : Printfmt.vprintfmt (sizeCall (-1)) fuel = some out) :
    (sendSize fuel (-1)).run s = .ret 0 (s.send sizeLine) := by
  have hout : out = _ ++ minusOne.printed ++ _ :=
    (Printfmt.callOf_prints _ _ _ _).eq_of_vprintfmt h
  rw [printed_minusOne] at hout
  have hbytes : out.map (BitVec.ofInt 8) = sizeLine := by
    rw [hout]
    decide
  have hlen : out.length = 20 := by
    rw [hout]
    decide
  unfold sendSize
  rw [h]
  dsimp only
  rw [if_neg (by omega), hbytes]
  exact writeAll_run (by decide)

/-- The whole of `send_file` for a file. -/
theorem sendFile_run {files : List U8 → Option Node} {fuel : Nat} {r : Int} {url : List U8}
    (hfile : files url = some ⟨false, data⟩) {out : List Int}
    (h : Printfmt.vprintfmt (sizeCall (-1)) fuel = some out) :
    (sendFile files fuel r url).run s =
      (sendData ⟨false, data⟩).run
        ((((s.send (text "HTTP/1.0 200 OK\r\nServer: jhttpd/0.1\r\n")).send
        sizeLine).send (text "Content-Type: text/html\r\n")).send (text "\r\n")) := by
  have hzero : ¬ (0 : Int) < 0 := by decide
  unfold sendFile
  dsimp only
  rw [hfile]
  dsimp only
  rw [if_neg (by decide), Prog.run_bind_ret sendHeader_run, if_neg hzero,
    Prog.run_bind_ret (sendSize_run h), if_neg hzero]
  unfold sendContentType sendHeaderFin
  rw [Prog.run_bind_ret (writeAll_run (by decide)), if_neg hzero,
    Prog.run_bind_ret (writeAll_run (by decide)), if_neg hzero]

/-- Where `vprintfmt` does not get to the end, `send_file` does not return. -/
theorem sendFile_stuck {files : List U8 → Option Node} {fuel : Nat} {r : Int} {url : List U8}
    (hfile : files url = some ⟨false, data⟩)
    (h : Printfmt.vprintfmt (sizeCall (-1)) fuel = none) :
    ∃ t, (sendFile files fuel r url).run s = .stop t := by
  have hstop : ∀ t, (sendSize fuel (-1)).run t = .stop t := by
    intro t
    unfold sendSize
    rw [h]
    rfl
  unfold sendFile
  dsimp only
  rw [hfile]
  dsimp only
  rw [if_neg (by decide), Prog.run_bind_ret sendHeader_run, if_neg (by decide),
    Prog.run_bind, hstop]
  exact ⟨_, rfl⟩

/-- A length does not start with `-`. -/
theorem length_ne (n : Nat) (front back : List U8) :
    (Nat.toDigits 10 n).map byte ++ front ≠ byte '-' :: back := by
  cases hdigits : Nat.toDigits 10 n with
  | nil => exact absurd hdigits Nat.toDigits_ne_nil
  | cons c cs =>
      obtain ⟨k, hk, rfl⟩ := Printfmt.mem_toDigits (by decide) (hdigits ▸ List.mem_cons_self)
      intro h
      have hall : ∀ k, k < 10 → byte (Nat.digitChar k) ≠ byte '-' := by decide
      exact hall k hk (List.cons.inj h).1

end Runs

/-- What a client has got when `send_file` returns. -/
theorem sendFile_sent {files : List U8 → Option Node} {fuel : Nat} {r r' : Int} {url data : List U8}
    {s s' : Conn} (hfile : files url = some ⟨false, data⟩)
    (hrun : (sendFile files fuel r url).run s = .ret r' s') :
    data.length < 1600 ∧ s'.sent = s.sent ++
      (text "HTTP/1.0 200 OK\r\nServer: jhttpd/0.1\r\n" ++ (sizeLine ++
        (text "Content-Type: text/html\r\n" ++ (text "\r\n" ++ data)))) := by
  cases hline : Printfmt.vprintfmt (sizeCall (-1)) fuel with
  | none =>
      obtain ⟨t, ht⟩ := sendFile_stuck (s := s) (r := r) hfile hline
      rw [ht] at hrun
      cases hrun
  | some out =>
      rw [sendFile_run hfile hline, sendData_run] at hrun
      split at hrun
      · next hlt =>
          obtain ⟨-, rfl⟩ := Outcome.ret.inj hrun
          refine ⟨hlt, ?_⟩
          simp only [Conn.send, List.append_assoc]
      · cases hrun

/-- No file is served right: the length that the client is told is -1. -/
theorem sendFile_never_serves (files : List U8 → Option Node) (fuel : Nat) (r : Int)
    (url data : List U8) (s : Conn) (hfile : files url = some ⟨false, data⟩) :
    ¬ Serves files fuel r url data s := by
  rintro ⟨r', s', hrun, hsent⟩
  have hall := List.append_cancel_left ((sendFile_sent hfile hrun).2.symm.trans hsent)
  have hlines := List.append_cancel_left hall
  unfold sizeLine at hlines
  rw [List.append_assoc] at hlines
  exact length_ne _ _ _ (List.append_cancel_left hlines).symm

/-- A server with one file, `/`, that is empty. -/
def emptyPage : List U8 → Option Node := fun url =>
  if url = text "/" then some ⟨false, []⟩ else none

theorem sendFile_never_serves_empty : ¬ Serves emptyPage 40 0 (text "/") [] ⟨[]⟩ :=
  sendFile_never_serves emptyPage 40 0 (text "/") [] ⟨[]⟩ rfl

/-- An empty file is not served right. -/
theorem not_sendFile_serves : ¬ ∀ (files : List U8 → Option Node) (r : Int) (url data : List U8)
    (s : Conn), files url = some ⟨false, data⟩ →
      ∃ n, ∀ fuel, n ≤ fuel → Serves files fuel r url data s := by
  intro h
  obtain ⟨n, hn⟩ := h emptyPage 0 (text "/") [] ⟨[]⟩ rfl
  obtain ⟨r', s', hrun, hsent⟩ := hn n (Nat.le_refl _)
  have hfile : emptyPage (text "/") = some ⟨false, []⟩ := rfl
  have hgot := (sendFile_sent hfile hrun).2
  exact absurd (hgot.symm.trans hsent) (by decide)

end Httpd

end Jos

import Jos.Mmu
import Mathlib.Data.List.Basic

/-!
# Requests to the web server, `handle_client` and `http_request_parse` of `user/httpd.c`

The parser is given the buffer but not how much of it has been received, and looks for a
blank, a newline or a `NUL`.  Behind the bytes that were received it finds what was on the
stack.  Every byte that is read is noted.
-/

namespace Jos

namespace Httpd

/-- The code of a character. -/
def byte (c : Char) : U8 := BitVec.ofNat 8 c.toNat

/-- `BUFFSIZE`. -/
def buffsize : Nat := 512

/-- `"GET "`. -/
def get : List U8 := "GET ".toList.map byte

/-- `E_BAD_REQ`. -/
def eBadReq : Nat := 1000

/-- What a function returns, and the places in the buffer that it has read. -/
structure Reading (α : Type) where
  value : α
  reads : List Nat

/-- `strncmp(request + i, s, strlen(s)) == 0`. -/
def strncmp (mem : Nat → U8) : List U8 → Nat → Reading Bool
  | [], _ => ⟨true, []⟩
  | c :: s, i =>
      if mem i = c then
        let rest := strncmp mem s (i + 1)
        ⟨rest.value, i :: rest.reads⟩
      else ⟨false, [i]⟩

/-- `while (*request && *request != c) request++;`, unless it takes `fuel` turns. -/
def scan (mem : Nat → U8) (c : U8) : Nat → Nat → Option (Reading Nat)
  | 0, _ => none
  | fuel + 1, i =>
      if mem i = 0#8 ∨ mem i = c then some ⟨i, [i]⟩
      else (scan mem c fuel (i + 1)).map (fun rest => ⟨rest.value, i :: rest.reads⟩)

/-- `memmove` to a string of its own. -/
def memmove (mem : Nat → U8) (i n : Nat) : Reading (List U8) :=
  ⟨(List.range' i n).map mem, List.range' i n⟩

/-- What `http_request_parse` does: it returns `-E_BAD_REQ`, or the url and the version. -/
inductive Request where
  | error (e : Nat)
  | parsed (url version : List U8)
deriving DecidableEq

/-- `http_request_parse`. -/
def httpRequestParse (mem : Nat → U8) (fuel : Nat) : Option (Reading Request) :=
  let cmp := strncmp mem get 0
  if cmp.value = false then some ⟨.error eBadReq, cmp.reads⟩
  else do
    let space ← scan mem (byte ' ') fuel 4
    let url := memmove mem 4 (space.value - 4)
    let start := space.value + 1
    let newline ← scan mem (byte '\n') fuel start
    let version := memmove mem start (newline.value - start)
    some ⟨.parsed url.value version.value,
      cmp.reads ++ (space.reads ++ (url.reads ++ (newline.reads ++ version.reads)))⟩

/-- What `handle_client` goes on with. -/
inductive Reply where
  | sendError (code : Nat)
  | sendFile (url version : List U8)
  | panicked
deriving DecidableEq

/-- What `handle_client` does with what the parser returns. -/
def Request.reply : Request → Reply
  | error e => if e = eBadReq then .sendError 400 else .panicked
  | parsed url version => .sendFile url version

/-- The buffer when these bytes have been received. -/
def buffer (received : List U8) (stack : Nat → U8) : Nat → U8 := fun i =>
  received.getD i (stack i)

/-- `handle_client`, up to its reply.  `received` is nothing when `read` fails. -/
def handleClient (received : Option (List U8)) (stack : Nat → U8) (fuel : Nat) :
    Option (Reading Reply) :=
  match received with
  | none => some ⟨.panicked, []⟩
  | some bytes =>
      (httpRequestParse (buffer bytes stack) fuel).map (fun r => ⟨r.value.reply, r.reads⟩)

/-- Whatever is on the stack, only bytes that were received are read, and the reply is the
same. -/
def ReadsReceived (bytes : List U8) : Prop :=
  ∃ reply, ∀ stack fuel, bytes.length < fuel → ∃ reads,
    handleClient (some bytes) stack fuel = some ⟨reply, reads⟩ ∧
      ∀ i, i ∈ reads → i < bytes.length

/-- A byte that was received and that ends a loop. -/
def StopsAt (bytes : List U8) (c : U8) (i : Nat) : Prop :=
  bytes[i]? = some 0#8 ∨ bytes[i]? = some c

/-- The first four bytes are not `GET `, which can be seen, or there is a blank or `NUL` behind
them, and a newline or `NUL` behind that. -/
def Complete (bytes : List U8) : Prop :=
  (¬ bytes <+: get ∧ ¬ get <+: bytes) ∨
    (get <+: bytes ∧ ∃ i j, 4 ≤ i ∧ i < j ∧ StopsAt bytes (byte ' ') i ∧
      StopsAt bytes (byte '\n') j)

/-! ## The loops -/

/-- There are these bytes from that place on. -/
def Shows (mem : Nat → U8) : Nat → List U8 → Prop
  | _, [] => True
  | i, b :: bytes => mem i = b ∧ Shows mem (i + 1) bytes

section Loops

variable {mem mem' : Nat → U8} {c : U8} {i j n fuel : Nat} {s bytes : List U8}

theorem strncmp_true (h : s <+: bytes) (hmem : Shows mem i bytes) :
    strncmp mem s i = ⟨true, List.range' i s.length⟩ := by
  induction s generalizing i bytes with
  | nil => rfl
  | cons a s ih =>
      cases bytes with
      | nil => exact absurd (List.prefix_nil.mp h) (List.cons_ne_nil _ _)
      | cons b bytes =>
          obtain ⟨rfl, hs⟩ := List.cons_prefix_cons.mp h
          rw [strncmp, if_pos hmem.1, ih hs hmem.2]
          rfl

/-- A difference in the bytes that there are. -/
theorem strncmp_false (h : ¬ s <+: bytes) (h' : ¬ bytes <+: s) (hmem : Shows mem i bytes) :
    (strncmp mem s i).value = false ∧
      ∀ k, k ∈ (strncmp mem s i).reads → k < i + bytes.length := by
  induction s generalizing i bytes with
  | nil => exact absurd (List.nil_prefix) h
  | cons a s ih =>
      cases bytes with
      | nil => exact absurd List.nil_prefix h'
      | cons b bytes =>
          rw [strncmp, List.length_cons]
          by_cases hab : mem i = a
          · have hb : b = a := hmem.1.symm.trans hab
            subst hb
            have hs : ¬ s <+: bytes := fun hh => h (List.cons_prefix_cons.mpr ⟨rfl, hh⟩)
            have hs' : ¬ bytes <+: s := fun hh => h' (List.cons_prefix_cons.mpr ⟨rfl, hh⟩)
            obtain ⟨hvalue, hreads⟩ := ih hs hs' hmem.2
            rw [if_pos hab]
            refine ⟨hvalue, fun k hk => ?_⟩
            rcases List.mem_cons.mp hk with rfl | hk
            · omega
            · have := hreads k hk
              omega
          · rw [if_neg hab]
            refine ⟨rfl, fun k hk => ?_⟩
            rw [List.mem_singleton.mp hk]
            omega

/-- The bytes are not enough to see a difference. -/
theorem strncmp_short (h : bytes <+: s) (hlen : bytes.length < s.length)
    (hmem : Shows mem i bytes) : i + bytes.length ∈ (strncmp mem s i).reads := by
  induction bytes generalizing i s with
  | nil =>
      cases s with
      | nil => exact absurd hlen (Nat.lt_irrefl _)
      | cons a s =>
          rw [strncmp]
          split
          · exact List.mem_cons_self
          · exact List.mem_cons_self
  | cons b bytes ih =>
      cases s with
      | nil => exact absurd hlen (Nat.not_lt_zero _)
      | cons a s =>
          obtain ⟨rfl, hs⟩ := List.cons_prefix_cons.mp h
          rw [strncmp, if_pos hmem.1]
          rw [List.length_cons, List.length_cons] at hlen
          have hrest := ih hs (by omega) hmem.2
          have hplace : i + (b :: bytes).length = i + 1 + bytes.length := by
            rw [List.length_cons]
            omega
          rw [hplace]
          exact List.mem_cons_of_mem _ hrest

theorem strncmp_congr (h : ∀ k, k ∈ (strncmp mem s i).reads → mem' k = mem k) :
    strncmp mem' s i = strncmp mem s i := by
  induction s generalizing i with
  | nil => rfl
  | cons a s ih =>
      rw [strncmp] at h ⊢
      rw [strncmp]
      by_cases hab : mem i = a
      · rw [if_pos hab] at h ⊢
        have hi : mem' i = mem i := h i List.mem_cons_self
        rw [if_pos (hi.trans hab), ih (fun k hk => h k (List.mem_cons_of_mem _ hk))]
      · rw [if_neg hab] at h ⊢
        have hi : mem' i = mem i := h i List.mem_cons_self
        rw [if_neg (fun hh => hab (hi.symm.trans hh))]

/-- The loop has gone from the first place to the one that it returns. -/
theorem scan_some {r : Reading Nat} (h : scan mem c fuel i = some r) :
    i ≤ r.value ∧ r.value < i + fuel ∧ r.value ∈ r.reads ∧
      (mem r.value = 0#8 ∨ mem r.value = c) := by
  induction fuel generalizing i r with
  | zero => cases h
  | succ fuel ih =>
      rw [scan] at h
      split at h
      · next hstop =>
          obtain rfl := Option.some.inj h
          exact ⟨Nat.le_refl _, by dsimp only; omega, List.mem_singleton_self _, hstop⟩
      · obtain ⟨r', hr', rfl⟩ := Option.map_eq_some_iff.mp h
        obtain ⟨hle, hlt, hmem, hstop⟩ := ih hr'
        exact ⟨by dsimp only; omega, by dsimp only; omega, List.mem_cons_of_mem _ hmem, hstop⟩

/-- The loop ends where it has to, at the latest. -/
theorem scan_stops (hstop : mem j = 0#8 ∨ mem j = c) (hle : i ≤ j) (hfuel : j < i + fuel) :
    ∃ r, scan mem c fuel i = some r ∧ ∀ k, k ∈ r.reads → k ≤ j := by
  induction fuel generalizing i with
  | zero => omega
  | succ fuel ih =>
      rw [scan]
      by_cases hi : mem i = 0#8 ∨ mem i = c
      · rw [if_pos hi]
        refine ⟨_, rfl, fun k hk => ?_⟩
        rw [List.mem_singleton.mp hk]
        exact hle
      · rw [if_neg hi]
        have hne : i ≠ j := by
          rintro rfl
          exact hi hstop
        obtain ⟨r, hr, hreads⟩ := ih (by omega : i + 1 ≤ j) (by omega)
        rw [hr]
        refine ⟨_, rfl, fun k hk => ?_⟩
        rcases List.mem_cons.mp hk with rfl | hk
        · exact hle
        · exact hreads k hk

theorem scan_congr {r : Reading Nat} {fuel' : Nat} (h : scan mem c fuel i = some r)
    (hmem : ∀ k, k ∈ r.reads → mem' k = mem k) (hfuel : r.value < i + fuel') :
    scan mem' c fuel' i = some r := by
  induction fuel generalizing i r fuel' with
  | zero => cases h
  | succ fuel ih =>
      have hle := (scan_some h).1
      obtain ⟨fuel', rfl⟩ := Nat.exists_eq_succ_of_ne_zero (by omega : fuel' ≠ 0)
      rw [scan] at h ⊢
      split at h
      · next hstop =>
          obtain rfl := Option.some.inj h
          have hi : mem' i = mem i := hmem i (List.mem_singleton_self _)
          rw [hi, if_pos hstop]
      · next hstop =>
          obtain ⟨r', hr', rfl⟩ := Option.map_eq_some_iff.mp h
          have hi : mem' i = mem i := hmem i List.mem_cons_self
          rw [hi, if_neg hstop, ih hr' (fun k hk => hmem k (List.mem_cons_of_mem _ hk))
            (by dsimp only at hfuel; omega)]
          rfl

theorem memmove_congr (h : ∀ k, k ∈ (memmove mem i n).reads → mem' k = mem k) :
    memmove mem' i n = memmove mem i n := by
  exact congrArg (fun l => Reading.mk l (List.range' i n)) (List.map_congr_left h)

end Loops

/-! ## The parser -/

section Parser

variable {mem mem' : Nat → U8} {n fuel fuel' : Nat} {bytes : List U8}

/-- Memory that is not read does not matter. -/
theorem httpRequestParse_congr {r : Reading Request} (h : httpRequestParse mem fuel = some r)
    (hreads : ∀ k, k ∈ r.reads → k < n) (hmem : ∀ k, k < n → mem' k = mem k) (hfuel : n < fuel') :
    httpRequestParse mem' fuel' = some r := by
  have hsame : ∀ k, k ∈ r.reads → mem' k = mem k := fun k hk => hmem k (hreads k hk)
  unfold httpRequestParse at h ⊢
  dsimp only at h ⊢
  by_cases hcmp : (strncmp mem get 0).value = false
  · rw [if_pos hcmp] at h
    obtain rfl := Option.some.inj h
    rw [strncmp_congr hsame, if_pos hcmp]
  · rw [if_neg hcmp] at h
    obtain ⟨space, hspace, h⟩ := Option.bind_eq_some_iff.mp h
    obtain ⟨newline, hnewline, h⟩ := Option.bind_eq_some_iff.mp h
    obtain rfl := Option.some.inj h
    have hin : ∀ (rs : List Nat), (∀ k, k ∈ rs → k ∈ (strncmp mem get 0).reads ++ (space.reads ++
        ((memmove mem 4 (space.value - 4)).reads ++ (newline.reads ++
          (memmove mem (space.value + 1) (newline.value - (space.value + 1))).reads)))) →
        ∀ k, k ∈ rs → mem' k = mem k := fun rs hrs k hk => hsame k (hrs k hk)
    have hcmp' : strncmp mem' get 0 = strncmp mem get 0 :=
      strncmp_congr (hin _ (fun k hk => List.mem_append_left _ hk))
    have hspacereads : ∀ k, k ∈ space.reads → k < n := fun k hk =>
      hreads k (List.mem_append_right _ (List.mem_append_left _ hk))
    have hnewlinereads : ∀ k, k ∈ newline.reads → k < n := fun k hk =>
      hreads k (List.mem_append_right _ (List.mem_append_right _ (List.mem_append_right _
        (List.mem_append_left _ hk))))
    have hspace' : scan mem' (byte ' ') fuel' 4 = some space :=
      scan_congr hspace (fun k hk => hmem k (hspacereads k hk))
        (by have := hspacereads _ (scan_some hspace).2.2.1; omega)
    have hnewline' : scan mem' (byte '\n') fuel' (space.value + 1) = some newline :=
      scan_congr hnewline (fun k hk => hmem k (hnewlinereads k hk))
        (by have := hnewlinereads _ (scan_some hnewline).2.2.1; omega)
    have hurl : memmove mem' 4 (space.value - 4) = memmove mem 4 (space.value - 4) :=
      memmove_congr (hin _ (fun k hk => List.mem_append_right _ (List.mem_append_right _
        (List.mem_append_left _ hk))))
    have hversion : memmove mem' (space.value + 1) (newline.value - (space.value + 1)) =
        memmove mem (space.value + 1) (newline.value - (space.value + 1)) :=
      memmove_congr (hin _ (fun k hk => List.mem_append_right _ (List.mem_append_right _
        (List.mem_append_right _ (List.mem_append_right _ hk)))))
    rw [hcmp', if_neg hcmp, hspace']
    simp only [Option.bind_eq_bind, Option.bind_some]
    rw [hnewline', hurl, Option.bind_some, hversion]

theorem buffer_lt {stack : Nat → U8} {i : Nat} (h : i < bytes.length) :
    bytes[i]? = some (buffer bytes stack i) := by
  unfold buffer
  rw [List.getD_eq_getElem?_getD, List.getElem?_eq_getElem h]
  rfl

theorem buffer_shows (bytes : List U8) (stack : Nat → U8) : Shows (buffer bytes stack) 0 bytes := by
  have hshows : ∀ (rest : List U8) (i : Nat), (∀ k, k < rest.length →
      rest[k]? = some (buffer bytes stack (i + k))) → Shows (buffer bytes stack) i rest := by
    intro rest
    induction rest with
    | nil => exact fun _ _ => trivial
    | cons b rest ih =>
        intro i h
        refine ⟨(Option.some.inj (h 0 (Nat.succ_pos _))).symm, ih (i + 1) (fun k hk => ?_)⟩
        have hnext := h (k + 1) (Nat.succ_lt_succ hk)
        rw [Nat.add_assoc, Nat.add_comm 1 k]
        exact hnext
  refine hshows bytes 0 (fun k hk => ?_)
  rw [Nat.zero_add]
  exact buffer_lt hk

theorem stopsAt_iff {stack : Nat → U8} {c : U8} {i : Nat} (h : i < bytes.length) :
    StopsAt bytes c i ↔ buffer bytes stack i = 0#8 ∨ buffer bytes stack i = c := by
  have hi : bytes[i]? = some (buffer bytes stack i) := buffer_lt h
  unfold StopsAt
  rw [hi, Option.some.injEq, Option.some.injEq]

theorem StopsAt.lt {c : U8} {i : Nat} (h : StopsAt bytes c i) : i < bytes.length := by
  rcases h with h | h
  · exact (List.getElem?_eq_some_iff.mp h).1
  · exact (List.getElem?_eq_some_iff.mp h).1

/-- A request that is complete is read up to its newline, at most. -/
theorem httpRequestParse_complete (h : Complete bytes) (stack : Nat → U8)
    (hfuel : bytes.length < fuel) :
    ∃ r, httpRequestParse (buffer bytes stack) fuel = some r ∧
      ∀ k, k ∈ r.reads → k < bytes.length := by
  have hshows := buffer_shows bytes stack
  unfold httpRequestParse
  dsimp only
  rcases h with ⟨hshort, hget⟩ | ⟨hget, i, j, hi, hij, hspace, hnewline⟩
  · obtain ⟨hvalue, hreads⟩ := strncmp_false hget hshort hshows
    rw [if_pos hvalue]
    rw [Nat.zero_add] at hreads
    exact ⟨_, rfl, hreads⟩
  · have hjlt := hnewline.lt
    obtain ⟨space, hrun, hle⟩ : ∃ r, scan (buffer bytes stack) (byte ' ') fuel 4 = some r ∧ _ :=
      scan_stops ((stopsAt_iff hspace.lt).mp hspace) hi (by omega)
    obtain ⟨hge, -, hmem, -⟩ := scan_some hrun
    have hspaceLe := hle _ hmem
    obtain ⟨newline, hrun', hle'⟩ :
        ∃ r, scan (buffer bytes stack) (byte '\n') fuel (space.value + 1) = some r ∧ _ :=
      scan_stops ((stopsAt_iff hnewline.lt).mp hnewline) (by omega) (by omega)
    obtain ⟨hge', -, hmem', -⟩ := scan_some hrun'
    have hnewlineLe := hle' _ hmem'
    have hlen := hget.length_le
    rw [strncmp_true hget hshows, if_neg (by decide), hrun]
    simp only [Option.bind_eq_bind, Option.bind_some]
    rw [hrun']
    refine ⟨_, rfl, fun k hk => ?_⟩
    have hget4 : get.length = 4 := rfl
    simp only [List.mem_append, memmove, List.mem_range'_1] at hk
    rcases hk with hk | hk | hk | hk | hk
    · omega
    · have := hle k hk
      omega
    · omega
    · have := hle' k hk
      omega
    · omega

theorem mem_reads_of_strncmp {r : Reading Request} (h : httpRequestParse mem fuel = some r)
    {k : Nat} (hk : k ∈ (strncmp mem get 0).reads) : k ∈ r.reads := by
  unfold httpRequestParse at h
  dsimp only at h
  split at h
  · obtain rfl := Option.some.inj h
    exact hk
  · obtain ⟨space, hspace, h⟩ := Option.bind_eq_some_iff.mp h
    obtain ⟨newline, hnewline, h⟩ := Option.bind_eq_some_iff.mp h
    obtain rfl := Option.some.inj h
    exact List.mem_append_left _ hk

/-- A request that the parser reads within the bytes received is complete. -/
theorem complete_of_reads {stack : Nat → U8} {r : Reading Request}
    (h : httpRequestParse (buffer bytes stack) fuel = some r)
    (hreads : ∀ k, k ∈ r.reads → k < bytes.length) : Complete bytes := by
  have hshows := buffer_shows bytes stack
  by_cases hget : get <+: bytes
  · unfold httpRequestParse at h
    dsimp only at h
    rw [strncmp_true hget hshows, if_neg (by decide)] at h
    obtain ⟨space, hspace, h⟩ := Option.bind_eq_some_iff.mp h
    obtain ⟨newline, hnewline, h⟩ := Option.bind_eq_some_iff.mp h
    obtain rfl := Option.some.inj h
    obtain ⟨hge, -, hmem, hstop⟩ := scan_some hspace
    obtain ⟨hge', -, hmem', hstop'⟩ := scan_some hnewline
    have hlt := hreads _ (List.mem_append_right _ (List.mem_append_left _ hmem))
    have hlt' := hreads _ (List.mem_append_right _ (List.mem_append_right _
      (List.mem_append_right _ (List.mem_append_left _ hmem'))))
    exact Or.inr ⟨hget, space.value, newline.value, hge, hge', (stopsAt_iff hlt).mpr hstop,
      (stopsAt_iff hlt').mpr hstop'⟩
  · by_cases hshort : bytes <+: get
    · -- the comparison goes on behind the bytes
      have hlen : bytes.length < get.length := by
        rcases Nat.lt_or_eq_of_le hshort.length_le with hlt | heq
        · exact hlt
        · exact absurd (hshort.eq_of_length heq ▸ List.prefix_refl _) hget
      have hread := strncmp_short hshort hlen hshows
      rw [Nat.zero_add] at hread
      exact absurd (hreads _ (mem_reads_of_strncmp h hread)) (Nat.lt_irrefl _)
    · exact Or.inl ⟨hshort, hget⟩

end Parser

/-- The outcome is that of the received bytes alone exactly when the request is complete. -/
theorem readsReceived_iff (bytes : List U8) : ReadsReceived bytes ↔ Complete bytes := by
  constructor
  · rintro ⟨reply, h⟩
    obtain ⟨reads, hrun, hreads⟩ := h (fun _ => 0#8) (bytes.length + 1) (Nat.lt_succ_self _)
    obtain ⟨r, hparse, hr⟩ := Option.map_eq_some_iff.mp hrun
    obtain ⟨rfl, rfl⟩ := Reading.mk.inj hr
    exact complete_of_reads hparse hreads
  · intro h
    obtain ⟨r, hparse, hreads⟩ := httpRequestParse_complete h (fun _ => 0#8) (Nat.lt_succ_self _)
    refine ⟨r.value.reply, fun stack fuel hfuel => ⟨r.reads, ?_, hreads⟩⟩
    have hsame : ∀ k, k < bytes.length →
        buffer bytes stack k = buffer bytes (fun _ => 0#8) k := fun k hk =>
      Option.some.inj ((buffer_lt hk).symm.trans (buffer_lt hk))
    unfold handleClient
    dsimp only
    rw [httpRequestParse_congr hparse hreads hsame hfuel]
    rfl

/-- `GET /`, without anything behind it. -/
def shortRequest : List U8 := "GET /".toList.map byte

/-- What is read for it depends on the stack. -/
theorem not_readsReceived : ¬ ∀ bytes : List U8, bytes.length ≤ buffsize → ReadsReceived bytes := by
  intro h
  have hcomplete := (readsReceived_iff shortRequest).mp (h shortRequest (by decide))
  rcases hcomplete with ⟨-, hget⟩ | ⟨-, i, j, hi, hij, hspace, hnewline⟩
  · exact hget (by decide)
  · have hlt : j < 5 := hnewline.lt
    omega

end Httpd

end Jos

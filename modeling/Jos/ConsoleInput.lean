import Mathlib.Data.List.Infix
import Jos.Lib.Ring
import Jos.Mmu

/-!
# Console input

Keyboard and serial port put characters into the ring `cons` of 512 cells, and
`cons_getc` takes them out, after it has polled both devices itself.  A full ring looks
like an empty one, so a burst that is too long replaces characters that nobody has read.

An event brings everything the device shows while it is polled, so that a burst is any
sequence of polls.  The kernel runs with interrupts off: an event is never inside another.
-/

namespace Jos
namespace ConsoleInput

/-! ## The serial port -/

/-- What the line status and the receive register of COM1 show at one poll. -/
structure SerialPoll where
  lsr : U8
  rx : U8

def comLsrData : U8 := 0x01#8

/-- `serial_proc_data`, and the polls that are still to come. -/
def serialProcData : List SerialPoll → Int × List SerialPoll
  | [] => (-1, [])
  | p :: polls => if p.lsr &&& comLsrData = 0#8 then (-1, polls) else (p.rx.toNat, polls)

/-! ## The keyboard -/

/-- What the status and the data port of the keyboard controller show at one poll. -/
structure KbdPoll where
  stat : U8
  data : U8

def kbsDib : U8 := 0x01#8
def kbsTerr : U8 := 0x20#8

def shiftBit : U32 := 0x01#32
def ctlBit : U32 := 0x02#32
def altBit : U32 := 0x04#32
def capslock : U32 := 0x08#32
def numlock : U32 := 0x10#32
def scrolllock : U32 := 0x20#32
def e0esc : U32 := 0x40#32

def shiftcode (data : U8) : U32 :=
  if data = 0x1D#8 ∨ data = 0x9D#8 then ctlBit
  else if data = 0x2A#8 ∨ data = 0x36#8 then shiftBit
  else if data = 0x38#8 ∨ data = 0xB8#8 then altBit
  else 0#32

def togglecode (data : U8) : U32 :=
  if data = 0x3A#8 then capslock
  else if data = 0x45#8 then numlock
  else if data = 0x46#8 then scrolllock
  else 0#32

/-- The keys behind an escape that `normalmap` and `shiftmap` agree on. -/
def farKeys : List (Nat × Nat) :=
  [(0xC7, 0xE0), (0x9C, 10), (0xB5, 47), (0xC8, 0xE2), (0xC9, 0xE6), (0xCB, 0xE4),
    (0xCD, 0xE5), (0xCF, 0xE1), (0xD0, 0xE3), (0xD1, 0xE7), (0xD2, 0xE8), (0xD3, 0xE9)]

/-- The characters of a string, as the first entries of a key map. -/
def keys (s : String) : List Nat := s.toList.map Char.toNat

/-- A key map of 256 entries: the first ones, and some further on. -/
def keymap (near : List Nat) (far : List (Nat × Nat)) (data : U8) : U8 :=
  BitVec.ofNat 8 (near.getD data.toNat ((far.lookup data.toNat).getD 0))

def normalmap : U8 → U8 :=
  keymap ([0, 0x1B] ++ keys "1234567890-=\x08\t" ++ keys "qwertyuiop[]\n" ++ [0]
    ++ keys "asdfghjkl;'" ++ [96, 0] ++ keys "\\zxcvbnm,./" ++ [0] ++ keys "*" ++ [0]
    ++ keys " " ++ List.replicate 13 0 ++ keys "789-456+1230.") farKeys

def shiftmap : U8 → U8 :=
  keymap ([0, 0x1B] ++ keys "!@#$%^&*()_+\x08\t" ++ keys "QWERTYUIOP\x7b\x7d\n" ++ [0]
    ++ keys "ASDFGHJKL:\"~" ++ [0] ++ keys "|ZXCVBNM<>?" ++ [0] ++ keys "*" ++ [0]
    ++ keys " " ++ List.replicate 13 0 ++ keys "789-456+1230.") farKeys

/-- `C(x)`, for each character. -/
def ctlKeys (s : String) : List Nat := (keys s).map (· - 64)

/-- `C('/')`, which the array keeps as a byte. -/
def ctlSlash : Nat := 0xEF

def ctlmap : U8 → U8 :=
  keymap (List.replicate 16 0 ++ ctlKeys "QWERTYUIOP" ++ [0, 0, 13, 0] ++ ctlKeys "ASDFGHJKL"
    ++ [0, 0, 0, 0] ++ ctlKeys "\\ZXCVBNM" ++ [0, 0, ctlSlash, 0, 0])
    [(0x97, 0xE0), (0xB5, ctlSlash), (0xC8, 0xE2), (0xC9, 0xE6), (0xCB, 0xE4), (0xCD, 0xE5),
      (0xCF, 0xE1), (0xD0, 0xE3), (0xD1, 0xE7), (0xD2, 0xE8), (0xD3, 0xE9)]

def charcode (shift : U32) : U8 → U8 :=
  if shift &&& ctlBit ≠ 0#32 then ctlmap
  else if shift &&& shiftBit ≠ 0#32 then shiftmap
  else normalmap

/-- What caps lock makes of a character. -/
def swapCase (c : Int) : Int :=
  if 97 ≤ c ∧ c ≤ 122 then c - 32 else if 65 ≤ c ∧ c ≤ 90 then c + 32 else c

/-- The end of `kbd_proc_data`: the character of a key that is pressed. -/
def kbdPressed (shift : U32) (data : U8) : Int × U32 :=
  let shift := (shift ||| shiftcode data) ^^^ togglecode data
  let c : Int := (charcode shift data).toNat
  (if shift &&& capslock ≠ 0#32 then swapCase c else c, shift)

/-- The part of `kbd_proc_data` behind the test for data, with the static `shift`. -/
def kbdKey (shift : U32) (data : U8) : Int × U32 :=
  if data = 0xE0#8 then (0, shift ||| e0esc)
  else if data &&& 0x80#8 ≠ 0#8 then
    let released := if shift &&& e0esc ≠ 0#32 then data else data &&& 0x7F#8
    (0, shift &&& ~~~(shiftcode released ||| e0esc))
  else if shift &&& e0esc ≠ 0#32 then
    kbdPressed (shift &&& ~~~e0esc) (data ||| 0x80#8)
  else kbdPressed shift data

/-- `kbd_proc_data`: ctrl-alt-del writes the reset port besides, and then goes on. -/
def kbdProcData : U32 × List KbdPoll → Int × (U32 × List KbdPoll)
  | (shift, []) => (-1, shift, [])
  | (shift, p :: polls) =>
      if p.stat &&& kbsDib = 0#8 then (-1, shift, polls)
      else if p.stat &&& kbsTerr ≠ 0#8 then (-1, shift, polls)
      else ((kbdKey shift p.data).1, (kbdKey shift p.data).2, polls)

/-! ## The ring -/

def consbufsize : Nat := 512

structure Cons where
  buf : Nat → U8
  rpos : U32
  wpos : U32

/-- A position behind another one, which starts again at the end. -/
def bumped (pos : U32) : U32 :=
  if pos + 1#32 = BitVec.ofNat 32 consbufsize then 0#32 else pos + 1#32

/-- The store of one character, unless it is outside the buffer. -/
def Cons.put (s : Cons) (c : Int) : Option Cons :=
  if s.wpos.toNat < consbufsize then
    some { s with
      buf := Function.update s.buf s.wpos.toNat (BitVec.ofInt 8 c)
      wpos := bumped s.wpos }
  else none

/-- The end of `cons_getc`, unless it loads from outside the buffer. -/
def Cons.grab (s : Cons) : Option (Int × Cons) :=
  if s.rpos = s.wpos then some (0, s)
  else if s.rpos.toNat < consbufsize then
    some ((s.buf s.rpos.toNat).toNat, { s with rpos := bumped s.rpos })
  else none

/-- `cons_intr`, for a device that gives `-1` within so many calls. -/
def consIntr {D : Type} (proc : D → Int × D) : Nat → D → Cons → Option (D × Cons)
  | 0, _, _ => none
  | fuel + 1, d, s =>
      if (proc d).1 = -1 then some ((proc d).2, s)
      else if (proc d).1 = 0 then consIntr proc fuel (proc d).2 s
      else (s.put (proc d).1).bind (consIntr proc fuel (proc d).2)

/-- The statics of the console. -/
structure Console where
  cons : Cons
  shift : U32
  serialExists : Bool

/-- `serial_intr`, with what the port shows while it runs. -/
def Console.serialIntr (t : Console) (polls : List SerialPoll) : Option Console :=
  if t.serialExists then
    (consIntr serialProcData (polls.length + 1) polls t.cons).map
      (fun r => { t with cons := r.2 })
  else some t

/-- `kbd_intr`, with what the controller shows while it runs. -/
def Console.kbdIntr (t : Console) (polls : List KbdPoll) : Option Console :=
  (consIntr kbdProcData (polls.length + 1) (t.shift, polls) t.cons).map
    (fun r => { t with cons := r.2, shift := r.1.1 })

/-- The polls at the beginning of `cons_getc`. -/
def Console.poll (t : Console) (serial : List SerialPoll) (kbd : List KbdPoll) :
    Option Console :=
  (t.serialIntr serial).bind (fun t => t.kbdIntr kbd)

/-- `cons_getc`, with what the devices show while it polls them. -/
def Console.consGetc (t : Console) (serial : List SerialPoll) (kbd : List KbdPoll) :
    Option (Int × Console) :=
  (t.poll serial kbd).bind (fun t => t.cons.grab.map (fun r => (r.1, { t with cons := r.2 })))

/-! ## Sessions -/

/-- The non-zero results of a device, up to the first `-1`. -/
def fedBy {D : Type} (proc : D → Int × D) : Nat → D → List Int
  | 0, _ => []
  | fuel + 1, d =>
      if (proc d).1 = -1 then []
      else if (proc d).1 = 0 then fedBy proc fuel (proc d).2
      else (proc d).1 :: fedBy proc fuel (proc d).2

/-- The characters of an interrupt of the serial port. -/
def Console.serialFed (t : Console) (polls : List SerialPoll) : List Int :=
  if t.serialExists then fedBy serialProcData (polls.length + 1) polls else []

/-- The characters of an interrupt of the keyboard. -/
def Console.kbdFed (t : Console) (polls : List KbdPoll) : List Int :=
  fedBy kbdProcData (polls.length + 1) (t.shift, polls)

/-- What happens at the console. -/
inductive Event where
  | serial (polls : List SerialPoll)
  | kbd (polls : List KbdPoll)
  | getc (serial : List SerialPoll) (kbd : List KbdPoll)

/-- The console, the characters it was fed, the results of `cons_getc`, and the most
characters that were unread at any time: while a device is polled they only become more. -/
structure Session where
  console : Console
  fed : List Int
  results : List Int
  peak : Nat

/-- The characters that `cons_getc` returned. -/
def Session.got (s : Session) : List Int := s.results.filter (· ≠ 0)

def Session.unread (s : Session) : Nat := s.fed.length - s.got.length

/-- What an interrupt, or a poll, makes of the session. -/
def Session.feed (s : Session) (console : Console) (cs : List Int) : Session :=
  let s' : Session := { s with console := console, fed := s.fed ++ cs }
  { s' with peak := max s.peak s'.unread }

/-- What a return from `cons_getc` makes of the session. -/
def Session.back (s : Session) (console : Console) (c : Int) : Session :=
  { s with console := console, results := s.results ++ [c] }

def Session.step (s : Session) : Event → Option Session
  | .serial polls =>
      (s.console.serialIntr polls).map (s.feed · (s.console.serialFed polls))
  | .kbd polls => (s.console.kbdIntr polls).map (s.feed · (s.console.kbdFed polls))
  | .getc serial kbd =>
      ((s.console.poll serial kbd).map
        (s.feed · (s.console.serialFed serial ++ s.console.kbdFed kbd))).bind (fun s' =>
          (s.console.consGetc serial kbd).map (fun r => s'.back r.2 r.1))

def Session.run (s : Session) : List Event → Option Session
  | [] => some s
  | e :: es => (s.step e).bind (fun s' => s'.run es)

/-- The console before its first interrupt. -/
def atBoot (serialExists : Bool) : Session where
  console :=
    { cons := { buf := fun _ => 0#8, rpos := 0#32, wpos := 0#32 }
      shift := 0#32
      serialExists := serialExists }
  fed := []
  results := []
  peak := 0

/-! ## One character -/

theorem bumped_toNat {pos : U32} {n : Nat} (h : pos.toNat = n % consbufsize) :
    (bumped pos).toNat = (n + 1) % consbufsize := by
  have hmod := Nat.mod_lt n (show 0 < consbufsize by decide)
  unfold bumped
  split
  · rename_i hwrap
    have hlast := congrArg BitVec.toNat hwrap
    simp only [BitVec.toNat_add, h, consbufsize, BitVec.toNat_ofNat] at hlast hmod ⊢
    omega
  · rename_i hnext
    have hnot : (pos + 1#32).toNat ≠ 512 := fun heq => hnext (BitVec.eq_of_toNat_eq heq)
    simp only [BitVec.toNat_add, h, consbufsize, BitVec.toNat_ofNat] at hnot hmod ⊢
    omega

/-- The ring after the characters `xs`: it holds the last 512 of them. -/
structure Stored (s : Cons) (xs : List Int) : Prop where
  wpos : s.wpos.toNat = xs.length % consbufsize
  recent : Ring.Recent (fun cell x => ((s.buf cell).toNat : Int) = x) consbufsize xs

theorem Stored.put {s : Cons} {xs : List Int} (h : Stored s xs) {c : Int} (hlow : 0 ≤ c)
    (hhigh : c < 256) :
    ∃ s', s.put c = some s' ∧ Stored s' (xs ++ [c]) ∧ s'.rpos = s.rpos := by
  have hin : s.wpos.toNat < consbufsize := h.wpos ▸ Nat.mod_lt _ (by decide)
  refine ⟨_, if_pos hin, ⟨?_, h.recent.push ?_ ?_⟩, rfl⟩
  · rw [List.length_append, List.length_singleton]
    exact bumped_toNat h.wpos
  · intro cell y hne hcell
    rw [← h.wpos] at hne
    simpa only [Function.update_of_ne hne] using hcell
  · rw [← h.wpos]
    simp only [Function.update_self, BitVec.toNat_ofInt]
    omega

/-! ## One interrupt -/

/-- A device that gives characters, and `-1` at the latest when its polls are over. -/
def Feeds {D : Type} (proc : D → Int × D) (polls : D → Nat) : Prop :=
  ∀ d, (proc d).1 = -1 ∨
    (0 ≤ (proc d).1 ∧ (proc d).1 < 256 ∧ polls (proc d).2 < polls d)

theorem serialProcData_feeds : Feeds serialProcData List.length := by
  intro d
  cases d with
  | nil => exact Or.inl rfl
  | cons p polls =>
      by_cases hdata : p.lsr &&& comLsrData = 0#8
      · exact Or.inl (by rw [serialProcData, if_pos hdata])
      · rw [serialProcData, if_neg hdata]
        have hlt := p.rx.isLt
        refine Or.inr ⟨Int.natCast_nonneg _, ?_, Nat.lt_succ_self _⟩
        dsimp only
        omega

theorem swapCase_char {c : Int} (hlow : 0 ≤ c) (hhigh : c < 256) :
    0 ≤ swapCase c ∧ swapCase c < 256 := by
  unfold swapCase
  split
  · omega
  · split <;> omega

theorem kbdPressed_char (shift : U32) (data : U8) :
    0 ≤ (kbdPressed shift data).1 ∧ (kbdPressed shift data).1 < 256 := by
  have hchar : ∀ c : U8, 0 ≤ (c.toNat : Int) ∧ (c.toNat : Int) < 256 := by
    intro c
    have hlt := c.isLt
    omega
  unfold kbdPressed
  dsimp only
  split
  · exact swapCase_char (hchar _).1 (hchar _).2
  · exact hchar _

theorem kbdKey_char (shift : U32) (data : U8) :
    0 ≤ (kbdKey shift data).1 ∧ (kbdKey shift data).1 < 256 := by
  have hzero : (0 : Int) ≤ 0 ∧ (0 : Int) < 256 := by decide
  unfold kbdKey
  split_ifs
  · exact hzero
  · exact hzero
  · exact hzero
  · exact kbdPressed_char _ _
  · exact kbdPressed_char _ _

theorem kbdProcData_feeds : Feeds kbdProcData (fun d => d.2.length) := by
  rintro ⟨shift, polls⟩
  cases polls with
  | nil => exact Or.inl rfl
  | cons p polls =>
      by_cases hdib : p.stat &&& kbsDib = 0#8
      · exact Or.inl (by rw [kbdProcData, if_pos hdib])
      · by_cases hterr : p.stat &&& kbsTerr ≠ 0#8
        · exact Or.inl (by rw [kbdProcData, if_neg hdib, if_pos hterr])
        · rw [kbdProcData, if_neg hdib, if_neg hterr]
          exact Or.inr ⟨(kbdKey_char _ _).1, (kbdKey_char _ _).2, Nat.lt_succ_self _⟩

/-- `cons_intr` ends, and stores what it is fed. -/
theorem consIntr_stores {D : Type} {proc : D → Int × D} {polls : D → Nat}
    (hproc : Feeds proc polls) {fuel : Nat} {d : D} (hfuel : polls d < fuel) {s : Cons}
    {xs : List Int} (h : Stored s xs) :
    ∃ r, consIntr proc fuel d s = some r ∧ Stored r.2 (xs ++ fedBy proc fuel d) ∧
      r.2.rpos = s.rpos := by
  induction fuel generalizing d s xs with
  | zero => exact absurd hfuel (Nat.not_lt_zero _)
  | succ fuel ih =>
      unfold consIntr fedBy
      split
      · exact ⟨_, rfl, by simpa using h, rfl⟩
      · rename_i hgoes
        obtain ⟨hlow, hhigh, hless⟩ := (hproc d).resolve_left hgoes
        have hfuel' : polls (proc d).2 < fuel := by omega
        split
        · exact ih hfuel' h
        · obtain ⟨s', hput, hs', hrpos⟩ := h.put hlow hhigh
          obtain ⟨r, hr, hstored, hsame⟩ := ih hfuel' hs'
          refine ⟨r, by rw [hput]; exact hr, ?_, hsame.trans hrpos⟩
          rwa [List.append_assoc] at hstored

/-- What a device feeds are characters. -/
theorem fedBy_nonzero {D : Type} {proc : D → Int × D} {fuel : Nat} {d : D} {c : Int}
    (hc : c ∈ fedBy proc fuel d) : c ≠ 0 := by
  induction fuel generalizing d with
  | zero => exact absurd hc List.not_mem_nil
  | succ fuel ih =>
      unfold fedBy at hc
      split at hc
      · exact absurd hc List.not_mem_nil
      · split at hc
        · exact ih hc
        · rename_i hne
          rcases List.mem_cons.mp hc with rfl | hrest
          · exact hne
          · exact ih hrest

theorem Console.serialIntr_stores {t : Console} {xs : List Int} (h : Stored t.cons xs)
    (polls : List SerialPoll) :
    ∃ t', t.serialIntr polls = some t' ∧ Stored t'.cons (xs ++ t.serialFed polls) ∧
      t'.cons.rpos = t.cons.rpos ∧ t'.shift = t.shift := by
  unfold Console.serialIntr Console.serialFed
  split
  · obtain ⟨r, hr, hstored, hrpos⟩ :=
      consIntr_stores serialProcData_feeds (Nat.lt_succ_self polls.length) h
    exact ⟨{ t with cons := r.2 }, by rw [hr]; rfl, hstored, hrpos, rfl⟩
  · exact ⟨t, rfl, by simpa using h, rfl, rfl⟩

theorem Console.kbdIntr_stores {t : Console} {xs : List Int} (h : Stored t.cons xs)
    (polls : List KbdPoll) :
    ∃ t', t.kbdIntr polls = some t' ∧ Stored t'.cons (xs ++ t.kbdFed polls) ∧
      t'.cons.rpos = t.cons.rpos := by
  obtain ⟨r, hr, hstored, hrpos⟩ :=
    consIntr_stores kbdProcData_feeds (d := (t.shift, polls)) (Nat.lt_succ_self polls.length) h
  exact ⟨_, by unfold Console.kbdIntr; rw [hr]; rfl, hstored, hrpos⟩

theorem Console.poll_stores {t : Console} {xs : List Int} (h : Stored t.cons xs)
    (serial : List SerialPoll) (kbd : List KbdPoll) :
    ∃ t', t.poll serial kbd = some t' ∧
      Stored t'.cons (xs ++ (t.serialFed serial ++ t.kbdFed kbd)) ∧
      t'.cons.rpos = t.cons.rpos := by
  obtain ⟨t₁, hserial, hstored₁, hrpos₁, hshift⟩ := t.serialIntr_stores h serial
  obtain ⟨t₂, hkbd, hstored₂, hrpos₂⟩ := t₁.kbdIntr_stores hstored₁ kbd
  refine ⟨t₂, by unfold Console.poll; rw [hserial]; exact hkbd, ?_, hrpos₂.trans hrpos₁⟩
  have hfed : t₁.kbdFed kbd = t.kbdFed kbd := by
    unfold Console.kbdFed
    rw [hshift]
  rwa [hfed, List.append_assoc] at hstored₂

/-! ## A whole session -/

/-- The characters before index `n` are read or replaced. -/
structure Inv (s : Session) (n : Nat) : Prop where
  stored : Stored s.console.cons s.fed
  rpos : s.console.cons.rpos.toNat = n % consbufsize
  le : n ≤ s.fed.length
  ordered : s.got.Sublist (s.fed.take n)
  chars : ∀ c ∈ s.fed, c ≠ 0
  exact : s.peak < consbufsize → s.got = s.fed.take n

theorem Inv.atBoot (serialExists : Bool) : Inv (atBoot serialExists) 0 where
  stored := ⟨rfl, fun j y hj => by simp [ConsoleInput.atBoot] at hj⟩
  rpos := rfl
  le := Nat.le_refl _
  ordered := List.Sublist.slnil
  chars := fun c hc => absurd hc List.not_mem_nil
  exact := fun _ => rfl

theorem Inv.feed {s : Session} {n : Nat} (h : Inv s n) {t : Console} {cs : List Int}
    (hstored : Stored t.cons (s.fed ++ cs)) (hrpos : t.cons.rpos = s.console.cons.rpos)
    (hcs : ∀ c ∈ cs, c ≠ 0) : Inv (s.feed t cs) n := by
  have htake : (s.fed ++ cs).take n = s.fed.take n := List.take_append_of_le_length h.le
  refine ⟨hstored, hrpos ▸ h.rpos, ?_, ?_, ?_, ?_⟩
  · exact le_trans h.le (by simp [Session.feed])
  · exact htake ▸ h.ordered
  · intro c hc
    rcases List.mem_append.mp hc with hold | hnew
    · exact h.chars c hold
    · exact hcs c hnew
  · intro hpeak
    exact htake ▸ h.exact (lt_of_le_of_lt (le_max_left _ _) hpeak)

theorem Console.serialFed_nonzero {t : Console} {polls : List SerialPoll} {c : Int}
    (hc : c ∈ t.serialFed polls) : c ≠ 0 := by
  unfold Console.serialFed at hc
  split at hc
  · exact fedBy_nonzero hc
  · exact absurd hc List.not_mem_nil

theorem Session.got_back_zero (s : Session) (t : Console) : (s.back t 0).got = s.got := by
  simp [Session.got, Session.back]

theorem Session.got_back (s : Session) (t : Console) {c : Int} (hc : c ≠ 0) :
    (s.back t c).got = s.got ++ [c] := by
  simp [Session.got, Session.back, hc]

/-- After a read: nothing was there, or the last character of the next cell was. -/
theorem Inv.grab {s : Session} {n : Nat} (h : Inv s n)
    (hpeak : s.unread ≤ s.peak) :
    ∃ c cons n', s.console.cons.grab = some (c, cons) ∧
      Inv (s.back { s.console with cons := cons } c) n' ∧
      (c = 0 → s.peak < consbufsize → s.got = s.fed) := by
  have hpos : 0 < consbufsize := by decide
  by_cases hempty : s.console.cons.rpos = s.console.cons.wpos
  · refine ⟨0, s.console.cons, n, if_pos hempty, ?_, ?_⟩
    · have hgot := s.got_back_zero { s.console with cons := s.console.cons }
      exact ⟨h.stored, h.rpos, h.le, by rw [hgot]; exact h.ordered, h.chars,
        fun hp => by rw [hgot]; exact h.exact hp⟩
    · -- fewer than 512 are unread, so equal cells are equal positions
      intro _ hroom
      have hgot := h.exact hroom
      have hlen : s.got.length = n := by rw [hgot, List.length_take, min_eq_left h.le]
      have hcell : n % consbufsize = s.fed.length % consbufsize := by
        rw [← h.rpos, hempty, h.stored.wpos]
      have hunread : s.fed.length - n < consbufsize := by
        unfold Session.unread at hpeak
        omega
      have hend : n = s.fed.length := by
        by_contra hne
        have hle := h.le
        exact Ring.mod_ne (Nat.lt_of_le_of_ne hle hne) (by omega) hcell
      rw [hgot, hend, List.take_length]
  · have hcell : n % consbufsize ≠ s.fed.length % consbufsize := by
      rw [← h.rpos, ← h.stored.wpos]
      exact fun heq => hempty (BitVec.eq_of_toNat_eq heq)
    obtain ⟨i, y, hni, hrecent, hmod, hy, hholds⟩ := h.stored.recent.get hpos h.le hcell
    obtain ⟨hi, hget⟩ := List.getElem?_eq_some_iff.mp hy
    have hin : s.console.cons.rpos.toNat < consbufsize := h.rpos ▸ Nat.mod_lt _ hpos
    have hne : y ≠ 0 := h.chars y (List.mem_of_getElem? hy)
    have hnext : s.fed.take (i + 1) = s.fed.take i ++ [y] := by
      rw [List.take_add_one, hy]
      rfl
    refine ⟨y, { s.console.cons with rpos := bumped s.console.cons.rpos }, i + 1, ?_, ?_, ?_⟩
    · rw [Cons.grab, if_neg hempty, if_pos hin, h.rpos, hholds]
    · refine ⟨⟨h.stored.wpos, h.stored.recent⟩, ?_, hi, ?_, h.chars, ?_⟩
      · exact bumped_toNat (h.rpos.trans hmod.symm)
      · rw [s.got_back _ hne]
        change (s.got ++ [y]).Sublist (s.fed.take (i + 1))
        rw [hnext]
        exact (h.ordered.trans (List.take_sublist_take_left hni)).append (List.Sublist.refl _)
      · intro hroom
        have hall := h.exact hroom
        have hlen : s.got.length = n := by rw [hall, List.length_take, min_eq_left h.le]
        have hfirst : i = n := by
          unfold Session.unread at hpeak
          by_contra hother
          exact Ring.mod_ne (Nat.lt_of_le_of_ne hni (Ne.symm hother))
            (by change s.peak < consbufsize at hroom; omega) hmod.symm
        rw [s.got_back _ hne]
        change s.got ++ [y] = s.fed.take (i + 1)
        rw [hnext, hall, hfirst]
    · exact fun hzero => absurd hzero hne

theorem Inv.getc {s : Session} {n : Nat} (h : Inv s n) (serial : List SerialPoll)
    (kbd : List KbdPoll) :
    ∃ s' n' c, s.step (.getc serial kbd) = some s' ∧ Inv s' n' ∧
      s'.results = s.results ++ [c] ∧ (c = 0 → s'.peak < consbufsize → s'.got = s'.fed) := by
  obtain ⟨t, hpoll, hstored, hrpos⟩ := s.console.poll_stores h.stored serial kbd
  have hfed : ∀ c ∈ s.console.serialFed serial ++ s.console.kbdFed kbd, c ≠ 0 := by
    intro c hc
    rcases List.mem_append.mp hc with hc | hc
    · exact Console.serialFed_nonzero hc
    · exact fedBy_nonzero hc
  obtain ⟨c, cons, n', hgrab, hinv, hzero⟩ :=
    (h.feed hstored hrpos hfed).grab (le_max_right _ _)
  refine ⟨_, n', c, ?_, hinv, rfl, ?_⟩
  · have hgetc : s.console.consGetc serial kbd = some (c, { t with cons := cons }) := by
      unfold Console.consGetc
      rw [hpoll]
      change t.cons.grab.map _ = _
      rw [show t.cons.grab = some (c, cons) from hgrab]
      rfl
    simp only [Session.step, hpoll, hgetc]
    rfl
  · rintro rfl hroom
    rw [Session.got_back_zero]
    exact hzero rfl hroom

theorem Inv.step {s : Session} {n : Nat} (h : Inv s n) (e : Event) :
    ∃ s' n', s.step e = some s' ∧ Inv s' n' := by
  cases e with
  | serial polls =>
      obtain ⟨t, hintr, hstored, hrpos, -⟩ := s.console.serialIntr_stores h.stored polls
      refine ⟨_, n, ?_, h.feed hstored hrpos (fun _ => Console.serialFed_nonzero)⟩
      simp only [Session.step, hintr]
      rfl
  | kbd polls =>
      obtain ⟨t, hintr, hstored, hrpos⟩ := s.console.kbdIntr_stores h.stored polls
      refine ⟨_, n, ?_, h.feed hstored hrpos (fun _ => fedBy_nonzero)⟩
      simp only [Session.step, hintr]
      rfl
  | getc serial kbd =>
      obtain ⟨s', n', -, hstep, hinv, -⟩ := h.getc serial kbd
      exact ⟨s', n', hstep, hinv⟩

theorem Inv.run {s : Session} {n : Nat} (h : Inv s n) (es : List Event) :
    ∃ s' n', s.run es = some s' ∧ Inv s' n' := by
  induction es generalizing s n with
  | nil => exact ⟨s, n, rfl, h⟩
  | cons e es ih =>
      obtain ⟨s₁, n₁, hstep, hinv⟩ := h.step e
      obtain ⟨s', n', hrun, hinv'⟩ := ih hinv
      exact ⟨s', n', by rw [Session.run, hstep]; exact hrun, hinv'⟩

/-- Whatever the devices and the readers do, the buffer is accessed inside only, and what
`cons_getc` returns was fed in this order.  While at most 511 characters are unread, it
returns all of them, and 0 only if there is none. -/
theorem consGetc_in_order (serialExists : Bool) (es : List Event) :
    ∃ s, (atBoot serialExists).run es = some s ∧
      (∀ c ∈ s.fed, c ≠ 0) ∧ s.got.Sublist s.fed ∧
      (s.peak ≤ consbufsize - 1 → s.got <+: s.fed) ∧
      ∀ serial kbd, ∃ s' c, s.step (.getc serial kbd) = some s' ∧
        s'.results = s.results ++ [c] ∧
        (c = 0 → s'.peak ≤ consbufsize - 1 → s'.got = s'.fed) := by
  obtain ⟨s, n, hrun, hinv⟩ := (Inv.atBoot serialExists).run es
  refine ⟨s, hrun, hinv.chars, hinv.ordered.trans (List.take_sublist _ _), ?_, ?_⟩
  · intro hroom
    rw [hinv.exact (Nat.lt_of_le_pred (by decide) hroom)]
    exact List.take_prefix _ _
  · intro serial kbd
    obtain ⟨s', -, c, hstep, -, hresults, hzero⟩ := hinv.getc serial kbd
    exact ⟨s', c, hstep, hresults,
      fun hc hroom => hzero hc (Nat.lt_of_le_pred (by decide) hroom)⟩

end ConsoleInput
end Jos

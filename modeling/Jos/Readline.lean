import Mathlib.Data.List.Infix
import Jos.ConsoleScreen

/-!
# Lines that are typed

`readline` edits a line in `buf` while the keys come in and echoes them.  A backspace or a
delete key takes the last character away; on an empty line the test falls through, and
the delete key, which is not below a blank, is stored like a letter.

The line that was meant differs exactly if such a character is still there at the end.
-/

namespace Jos
namespace Readline

open ConsoleScreen

/-! ## The code -/

def bufLen : Nat := 1024

/-- The static `buf`, the characters on the line, and what was echoed. -/
structure State where
  buf : Nat → U8
  i : Nat
  echo : List U8

/-- `buf[i] = c`, if the buffer has such an index. -/
def State.store (s : State) (c : Int) : Option State :=
  if s.i < bufLen then
    some { s with buf := Function.update s.buf s.i (BitVec.ofInt 8 c) }
  else none

/-- `if (echoing) cputchar(c)`. -/
def State.cputchar (s : State) (echoing : Bool) (c : Int) : State :=
  if echoing then { s with echo := s.echo ++ [BitVec.ofInt 8 c] } else s

/-- How `readline` ends, if it does. -/
inductive Outcome where
  /-- It returns no line: `getchar` failed. -/
  | null
  | line (s : State)
  /-- It waits for the next key. -/
  | waits (s : State)

/-- The loop of `readline`, on the results of `getchar`. -/
def readline (echoing : Bool) : List Int → State → Option Outcome
  | [], s => some (.waits s)
  | c :: cs, s =>
      if c < 0 then some .null
      else if (c = 8 ∨ c = 0x7f) ∧ 0 < s.i then
        readline echoing cs { s.cputchar echoing 8 with i := s.i - 1 }
      else if 32 ≤ c ∧ s.i < bufLen - 1 then
        ((s.cputchar echoing c).store c).bind (fun s' =>
          readline echoing cs { s' with i := s.i + 1 })
      else if c = 10 ∨ c = 13 then
        ((s.cputchar echoing 10).store 0).map .line
      else readline echoing cs s

/-- The line is empty at first. -/
def start (buf : Nat → U8) : State := { buf := buf, i := 0, echo := [] }

/-! ## What is meant -/

/-- The key that erases, and the other one. -/
def Erases (c : U8) : Prop := c = 8#8 ∨ c = 0x7f#8

instance (c : U8) : Decidable (Erases c) := inferInstanceAs (Decidable (_ ∨ _))

/-- What a key makes of a line. -/
def edit (line : List U8) (c : U8) : List U8 :=
  if Erases c then line.dropLast
  else if 32 ≤ c.toNat ∧ line.length < bufLen - 1 then line ++ [c]
  else line

/-- The line after some keys. -/
def edited (cs : List U8) : List U8 := cs.foldl edit []

/-- The buffer holds the line, and a NUL behind it. -/
structure Holds (buf : Nat → U8) (line : List U8) : Prop where
  chars : ∀ j c, (line)[j]? = some c → buf j = c
  nul : buf line.length = 0#8
  text : 0#8 ∉ line

/-! ## The screen -/

/-- The number of a place on the screen. -/
def place (t : Terminal) : Nat := crtCols * t.row.val + t.col.val

/-- What is shown at a place. -/
def cellAt (t : Terminal) (k : Nat) : U16 :=
  t.cell ⟨k / crtCols % crtRows, Nat.mod_lt _ (by decide)⟩
    ⟨k % crtCols, Nat.mod_lt _ (by decide)⟩

/-- A character, black on white. -/
def glyph (c : U8) : U16 := 0x0700#16 ||| c.setWidth 16

/-- There are only blanks at the cursor and behind it. -/
def Clear (t : Terminal) : Prop := ∀ k, place t ≤ k → k < crtSize → cellAt t k = blank

/-- From where the cursor was before, the screen may have moved up, it shows the line. -/
structure Shown (t t' : Terminal) (line : List U8) : Prop where
  start : ∃ rows, place t' + crtCols * rows = place t + line.length
  fits : line.length ≤ place t'
  chars : ∀ j c, (line)[j]? = some c → cellAt t' (place t' - line.length + j) = glyph c
  clear : Clear t'

/-- After the keys `cs` and the return key, `readline` returns the line that is meant,
and the echo shows it, before the cursor goes to the next line. -/
def Meets (echoing : Bool) (buf : Nat → U8) (cs : List U8) (ret : U8) : Prop :=
  ∃ s, readline echoing ((cs ++ [ret]).map (fun c => (c.toNat : Int))) (start buf)
      = some (.line s) ∧ Holds s.buf (edited cs) ∧
    (echoing = true → ∃ echo, s.echo = echo ++ [10#8] ∧
      ∀ t, Clear t → Shown t (t.feeds echo) (edited cs))

/-! ## The delete keys that stay -/

/-- The length of a line after some keys, if on an empty line a delete key is a
character. -/
def lengthAfter (n : Nat) (cs : List U8) : Nat :=
  cs.foldl (fun n c =>
    if Erases c ∧ 0 < n then n - 1
    else if 32 ≤ c.toNat ∧ n < bufLen - 1 then n + 1
    else n) n

/-- A delete key comes on an empty line, and the keys behind it never empty the line
again. -/
def Stays (cs : List U8) : Prop :=
  ∃ before after, cs = before ++ 0x7f#8 :: after ∧ lengthAfter 0 before = 0 ∧
    ∀ keys, keys <+: after → lengthAfter 1 keys ≠ 0

/-! ## The line that is read -/

/-- What `readline` makes of its line when a key comes. -/
def keyed (line : List U8) (c : U8) : List U8 :=
  if Erases c ∧ line ≠ [] then line.dropLast
  else if 32 ≤ c.toNat ∧ line.length < bufLen - 1 then line ++ [c]
  else line

/-- The line of `readline` after some keys. -/
def typed (cs : List U8) : List U8 := cs.foldl keyed []

theorem keyed_length_le {line : List U8} (h : line.length ≤ bufLen - 1) (c : U8) :
    (keyed line c).length ≤ bufLen - 1 := by
  unfold keyed
  split_ifs with _ hroom
  · rw [List.length_dropLast]
    omega
  · rw [List.length_append, List.length_singleton]
    omega
  · exact h

theorem length_foldl_keyed (line : List U8) (cs : List U8) :
    (cs.foldl keyed line).length = lengthAfter line.length cs := by
  induction cs generalizing line with
  | nil => rfl
  | cons c cs ih =>
      rw [List.foldl_cons, ih, lengthAfter, lengthAfter, List.foldl_cons]
      refine congrArg (fun n => List.foldl _ n cs) ?_
      have hpos : line ≠ [] ↔ 0 < line.length := List.length_pos_iff.symm
      unfold keyed
      simp only [hpos]
      split_ifs
      · exact List.length_dropLast
      · rw [List.length_append, List.length_singleton]
      · rfl

/-! ## Lines with a delete key -/

theorem edit_no_delete {line : List U8} (h : 0x7f#8 ∉ line) (c : U8) :
    0x7f#8 ∉ edit line c := by
  unfold edit
  split_ifs with herase
  · exact fun hmem => h (List.mem_of_mem_dropLast hmem)
  · intro hmem
    rcases List.mem_append.mp hmem with hold | hnew
    · exact h hold
    · exact herase (Or.inr (List.mem_singleton.mp hnew).symm)
  · exact h

/-- The two lines: they are the same, or a delete key begins the one of `readline`, and
the other is at most one character shorter. -/
structure Beside (line meant : List U8) : Prop where
  short : line.length ≤ bufLen - 1
  clean : 0x7f#8 ∉ meant
  either : line = meant ∨ (line.head? = some 0x7f#8 ∧
    (line.length = meant.length + 1 ∨ line.length = meant.length))

theorem head?_dropLast {line : List U8} (h : 1 < line.length) :
    line.dropLast.head? = line.head? := by
  match line, h with
  | _ :: _ :: _, _ => rfl

theorem Beside.key {line meant : List U8} (h : Beside line meant) (c : U8) :
    Beside (keyed line c) (edit meant c) := by
  refine ⟨keyed_length_le h.short c, edit_no_delete h.clean c, ?_⟩
  rcases h.either with rfl | ⟨hhead, hlen⟩
  · by_cases herase : Erases c
    · by_cases hempty : line = []
      · subst hempty
        rcases herase with rfl | rfl
        · exact Or.inl rfl
        · exact Or.inr ⟨rfl, Or.inl rfl⟩
      · unfold keyed edit
        rw [if_pos ⟨herase, hempty⟩, if_pos herase]
        exact Or.inl rfl
    · unfold keyed edit
      rw [if_neg (fun hboth => herase hboth.1), if_neg herase]
      exact Or.inl rfl
  · have hne : line ≠ [] := by
      rintro rfl
      cases hhead
    have hpos := List.length_pos_iff.mpr hne
    unfold keyed edit
    by_cases herase : Erases c
    · rw [if_pos ⟨herase, hne⟩, if_pos herase]
      by_cases hone : line.length = 1
      · -- the delete key itself is erased
        refine Or.inl ((List.length_eq_zero_iff.mp ?_).trans (List.length_eq_zero_iff.mp ?_).symm)
        all_goals rw [List.length_dropLast]; omega
      · refine Or.inr ⟨(head?_dropLast (by omega)).trans hhead, ?_⟩
        rw [List.length_dropLast, List.length_dropLast]
        omega
    · rw [if_neg (fun hboth => herase hboth.1), if_neg herase]
      have hshort := h.short
      right
      split_ifs with hroom hroom' hroom'
      · rw [List.head?_append_of_ne_nil _ hne, List.length_append, List.length_append]
        exact ⟨hhead, by simpa using hlen⟩
      · omega
      · rw [List.length_append, List.length_singleton]
        exact ⟨hhead, Or.inr (by omega)⟩
      · exact ⟨hhead, hlen⟩

theorem beside (cs : List U8) : Beside (typed cs) (edited cs) := by
  induction cs using List.reverseRecOn with
  | nil => exact ⟨Nat.zero_le _, List.not_mem_nil, Or.inl rfl⟩
  | append_singleton cs c ih =>
      unfold typed edited
      rw [List.foldl_append, List.foldl_append]
      exact ih.key c

/-- While a line is not emptied, its first character stays. -/
theorem head?_foldl_keyed {line : List U8} {cs : List U8} (hne : line ≠ [])
    (h : ∀ keys, keys <+: cs → lengthAfter line.length keys ≠ 0) :
    (cs.foldl keyed line).head? = line.head? := by
  induction cs generalizing line with
  | nil => rfl
  | cons c cs ih =>
      have hone : keyed line c ≠ [] := by
        have hlen := h [c] ⟨cs, rfl⟩
        rw [← length_foldl_keyed] at hlen
        exact List.length_pos_iff.mp (Nat.pos_of_ne_zero hlen)
      have hhead : (keyed line c).head? = line.head? := by
        have hpos := List.length_pos_iff.mpr hone
        unfold keyed at hpos ⊢
        split_ifs at hpos ⊢
        · rw [List.length_dropLast] at hpos
          exact head?_dropLast (by omega)
        · exact List.head?_append_of_ne_nil _ hne
        · rfl
      rw [List.foldl_cons, ih hone (fun keys hkeys => ?_), hhead]
      have hlater := h (c :: keys) (List.cons_prefix_cons.mpr ⟨rfl, hkeys⟩)
      rwa [← length_foldl_keyed, List.foldl_cons, length_foldl_keyed] at hlater

/-- The line begins with a delete key exactly if one stays. -/
theorem stays_iff (cs : List U8) : Stays cs ↔ (typed cs).head? = some 0x7f#8 := by
  constructor
  · rintro ⟨before, after, rfl, hempty, hnever⟩
    have hline : typed before = [] := by
      rw [← List.length_eq_zero_iff, typed, length_foldl_keyed]
      exact hempty
    unfold typed at hline ⊢
    rw [List.foldl_append, hline, List.foldl_cons]
    exact head?_foldl_keyed (List.cons_ne_nil _ _) hnever
  · intro hhead
    induction cs using List.reverseRecOn with
    | nil => cases hhead
    | append_singleton cs c ih =>
        have hstep : typed (cs ++ [c]) = keyed (typed cs) c := by
          unfold typed
          rw [List.foldl_append]
          rfl
        by_cases hold : (typed cs).head? = some 0x7f#8
        · obtain ⟨before, after, rfl, hempty, hnever⟩ := ih hold
          refine ⟨before, after ++ [c], by simp, hempty, fun keys hkeys => ?_⟩
          rcases List.prefix_concat_iff.mp hkeys with rfl | hkeys
          · have hline : typed before = [] := by
              rw [← List.length_eq_zero_iff, typed, length_foldl_keyed]
              exact hempty
            have hall : typed (before ++ 0x7f#8 :: after ++ [c])
                = (after ++ [c]).foldl keyed [0x7f#8] := by
              unfold typed at hline ⊢
              rw [List.append_assoc, List.foldl_append, hline]
              rfl
            have hlen : ((after ++ [c]).foldl keyed [0x7f#8]).length ≠ 0 := by
              rw [← hall]
              intro hzero
              rw [List.length_eq_zero_iff.mp hzero] at hhead
              cases hhead
            rwa [length_foldl_keyed] at hlen
          · exact hnever keys hkeys
        · -- the delete key has just come
          rw [hstep] at hhead
          by_cases hempty : typed cs = []
          · rw [hempty] at hhead
            have hc : c = 0x7f#8 := by
              unfold keyed at hhead
              split_ifs at hhead with hboth
              · exact absurd rfl hboth.2
              · exact Option.some.inj hhead
              · cases hhead
            refine ⟨cs, [], by rw [hc], ?_, fun keys hkeys => ?_⟩
            · have hlen := length_foldl_keyed [] cs
              exact hlen.symm.trans (List.length_eq_zero_iff.mpr hempty)
            · rw [List.prefix_nil.mp hkeys]
              exact Nat.one_ne_zero
          · exfalso
            apply hold
            unfold keyed at hhead
            split_ifs at hhead
            · rwa [head?_dropLast] at hhead
              by_contra hone
              have hpos := List.length_pos_iff.mpr hempty
              have hnil : (typed cs).dropLast = [] := by
                rw [← List.length_eq_zero_iff, List.length_dropLast]
                omega
              rw [hnil] at hhead
              cases hhead
            · rwa [List.head?_append_of_ne_nil _ hempty] at hhead
            · exact hhead

/-- The line of `readline` is the one that is meant exactly if no delete key stays. -/
theorem typed_eq_edited_iff (cs : List U8) : typed cs = edited cs ↔ ¬ Stays cs := by
  have h := beside cs
  rw [stays_iff]
  constructor
  · intro heq hhead
    rw [heq] at hhead
    exact h.clean (List.mem_of_head? hhead)
  · exact fun hhead => h.either.resolve_right (fun hboth => hhead hboth.1)

/-! ## The echo -/

theorem place_lt_crtSize (t : Terminal) : place t < crtSize := place_lt t.row t.col

theorem cellAt_place (t : Terminal) (r : Fin crtRows) (c : Fin crtCols) :
    cellAt t (crtCols * r.val + c.val) = t.cell r c := by
  have hpos : 0 < crtCols := by decide
  have hdiv : (crtCols * r.val + c.val) / crtCols = r.val := by
    rw [Nat.mul_add_div hpos, Nat.div_eq_of_lt c.isLt, Nat.add_zero]
  have hmod : (crtCols * r.val + c.val) % crtCols = c.val := by
    rw [Nat.mul_add_mod, Nat.mod_eq_of_lt c.isLt]
  unfold cellAt
  congr 1
  · exact Fin.ext ((congrArg (· % crtRows) hdiv).trans (Nat.mod_eq_of_lt r.isLt))
  · exact Fin.ext hmod

/-- Every place has a row and a column. -/
theorem exists_place {k : Nat} (h : k < crtSize) :
    ∃ (r : Fin crtRows) (c : Fin crtCols), k = crtCols * r.val + c.val :=
  ⟨⟨k / crtCols, Nat.div_lt_of_lt_mul (by rwa [Nat.mul_comm])⟩,
    ⟨k % crtCols, Nat.mod_lt _ (by decide)⟩, (Nat.div_add_mod _ _).symm⟩

theorem cellAt_put (t : Terminal) (v : U16) {k : Nat} (h : k < crtSize) :
    cellAt (t.put v) k = if k = place t then v else cellAt t k := by
  obtain ⟨r, c, rfl⟩ := exists_place h
  rw [cellAt_place, cellAt_place]
  split
  · rename_i hplace
    obtain ⟨rfl, rfl⟩ := place_inj hplace
    simp only [Terminal.put, Function.update_self]
  · rename_i hplace
    dsimp only [Terminal.put]
    by_cases hr : r = t.row
    · subst hr
      have hc : c ≠ t.col := fun heq => hplace (by rw [heq]; rfl)
      rw [Function.update_self, Function.update_of_ne hc]
    · rw [Function.update_of_ne hr]

/-- The cells of one screen are those of another, some rows higher. -/
def MovedUp (t t' : Terminal) (rows : Nat) : Prop :=
  ∀ k, k < crtSize → cellAt t' k =
    if k + crtCols * rows < crtSize then cellAt t (k + crtCols * rows) else blank

theorem MovedUp.none (t : Terminal) (row : Fin crtRows) (col : Fin crtCols) :
    MovedUp t { t with row := row, col := col } 0 := fun _ hk => (if_pos hk).symm

/-- A character goes to the cursor, and the cursor behind it. -/
theorem print_place (t : Terminal) (v : U16) :
    ∃ rows, place (t.print v) + crtCols * rows = place t + 1 ∧
      (rows = 0 ∨ bufLen ≤ place (t.print v)) ∧ MovedUp (t.put v) (t.print v) rows := by
  have hcol := t.col.isLt
  unfold Terminal.print
  split
  · exact ⟨0, rfl, Or.inl rfl, MovedUp.none _ _ _⟩
  · rename_i hlast
    have hend : t.col.val + 1 = crtCols := by omega
    have hnext : crtCols * (t.row.val + 1) = place t + 1 := by
      rw [place, Nat.mul_succ, Nat.add_assoc, hend]
    unfold Terminal.newline
    split
    · exact ⟨0, hnext, Or.inl rfl, MovedUp.none _ _ _⟩
    · rename_i hrow
      have hbottom : t.row.val = crtRows - 1 := by
        have hlt := t.row.isLt
        change ¬ t.row.val + 1 < crtRows at hrow
        omega
      refine ⟨1, ?_, Or.inr ?_, ?_⟩
      · rw [← hnext]
        rfl
      · change bufLen ≤ crtCols * t.row.val + 0
        rw [hbottom]
        decide
      · intro k hk
        obtain ⟨r, c, rfl⟩ := exists_place hk
        rw [cellAt_place]
        have hshift : crtCols * r.val + c.val + crtCols * 1 = crtCols * (r.val + 1) + c.val := by
          have hmul : crtCols * (r.val + 1) = crtCols * r.val + crtCols := rfl
          omega
        rw [hshift]
        unfold Terminal.scrolled
        dsimp only
        split
        · rename_i hr
          have hplace := cellAt_place (t.put v) ⟨r.val + 1, hr⟩ c
          rw [if_pos (place_lt ⟨r.val + 1, hr⟩ c), hplace]
        · rename_i hr
          have hsize : crtSize = crtCols * crtRows := rfl
          have hmul := Nat.mul_le_mul_left crtCols (Nat.le_of_not_lt hr)
          rw [if_neg (by omega)]

theorem Shown.empty {t : Terminal} (h : Clear t) : Shown t t [] :=
  ⟨⟨0, rfl⟩, Nat.zero_le _, fun j c hj => by simp at hj, h⟩

theorem Shown.print {t t' : Terminal} {line : List U8} (h : Shown t t' line) (c : U8)
    (hroom : line.length < bufLen) : Shown t (t'.print (glyph c)) (line ++ [c]) := by
  obtain ⟨rows, hplace, hlow, hmoved⟩ := print_place t' (glyph c)
  obtain ⟨before, hstart⟩ := h.start
  have hlen : (line ++ [c]).length = line.length + 1 := by simp
  have hlt := place_lt_crtSize t'
  have hlt' := place_lt_crtSize (t'.print (glyph c))
  have hfits := h.fits
  have hfits' : line.length + 1 ≤ place (t'.print (glyph c)) := by
    rcases hlow with rfl | hlow
    · omega
    · omega
  refine ⟨⟨before + rows, ?_⟩, by rwa [hlen], ?_, ?_⟩
  · rw [Nat.mul_add]
    omega
  · intro j d hj
    have hjlt := (List.getElem?_eq_some_iff.mp hj).1
    rw [hlen] at hjlt ⊢
    have hback : place (t'.print (glyph c)) - (line.length + 1) + j + crtCols * rows
        = place t' - line.length + j := by omega
    rw [hmoved _ (by omega), hback, if_pos (by omega), cellAt_put _ _ (by omega)]
    by_cases hnew : j = line.length
    · subst hnew
      rw [List.getElem?_concat_length] at hj
      rw [if_pos (by omega), Option.some.inj hj]
    · rw [List.getElem?_append_left (by omega)] at hj
      rw [if_neg (by omega), h.chars j d hj]
  · intro k hk hk'
    rw [hmoved k hk']
    split
    · rename_i hin
      rw [cellAt_put _ _ hin, if_neg (by omega), h.clear _ (by omega) hin]
    · rfl

theorem Shown.back {t t' : Terminal} {line : List U8} (h : Shown t t' line)
    (hne : line ≠ []) : Shown t (t'.feed 8#8) line.dropLast := by
  have hpos := List.length_pos_iff.mpr hne
  have hfits := h.fits
  have hlt := place_lt_crtSize t'
  obtain ⟨before, hstart⟩ := h.start
  obtain ⟨u, hback, hplace, hcell⟩ := t'.back_eq (show place t' ≠ 0 by omega)
  have hsame : ∀ k, cellAt u k = cellAt t' k := by
    intro k
    unfold cellAt
    rw [hcell]
  have hput : place (u.put blank) = place t' - 1 := hplace
  have hu : place u = place t' - 1 := hplace
  unfold Terminal.feed
  rw [if_pos rfl, hback]
  refine ⟨⟨before, ?_⟩, ?_, ?_, ?_⟩
  · rw [List.length_dropLast, Option.map_some, Option.getD_some, hput]
    omega
  · rw [List.length_dropLast, Option.map_some, Option.getD_some, hput]
    omega
  · intro j d hj
    have hjlt := (List.getElem?_eq_some_iff.mp hj).1
    rw [List.length_dropLast] at hjlt
    have hd : (line)[j]? = some d := by
      rw [List.getElem?_dropLast, if_pos hjlt] at hj
      exact hj
    have hj' : place t' - 1 - (line.length - 1) + j = place t' - line.length + j := by omega
    rw [List.length_dropLast, Option.map_some, Option.getD_some, hput, hj',
      cellAt_put _ _ (by omega), if_neg (by omega), hsame, h.chars j d hd]
  · intro k hk hk'
    rw [Option.map_some, Option.getD_some, hput] at hk
    rw [Option.map_some, Option.getD_some, cellAt_put _ _ hk']
    split
    · rfl
    · rw [hsame, h.clear k (by omega) hk']

/-! ## The loop -/

/-- The loop after some keys: the line is in the buffer, and on the screen. -/
structure Typing (echoing : Bool) (s : State) (line : List U8) : Prop where
  count : s.i = line.length
  short : line.length ≤ bufLen - 1
  chars : ∀ j c, (line)[j]? = some c → s.buf j = c
  text : ∀ c ∈ line, 32 ≤ c.toNat
  shown : echoing = true → ∀ t, Clear t → Shown t (t.feeds s.echo) line

theorem Typing.start (echoing : Bool) (buf : Nat → U8) : Typing echoing (start buf) [] where
  count := rfl
  short := Nat.zero_le _
  chars := fun j c hj => by simp at hj
  text := fun c hc => absurd hc List.not_mem_nil
  shown := fun _ t ht => Shown.empty ht

/-- What is echoed goes to the terminal. -/
theorem cputchar_feeds {s : State} {echoing : Bool} (hecho : echoing = true) (c : Int)
    (t : Terminal) :
    t.feeds (s.cputchar echoing c).echo = (t.feeds s.echo).feed (BitVec.ofInt 8 c) := by
  subst hecho
  simp only [State.cputchar, Terminal.feeds, if_true, List.foldl_append]
  rfl

theorem State.cputchar_i (s : State) (echoing : Bool) (c : Int) :
    (s.cputchar echoing c).i = s.i := by
  unfold State.cputchar
  split <;> rfl

theorem State.cputchar_buf (s : State) (echoing : Bool) (c : Int) :
    (s.cputchar echoing c).buf = s.buf := by
  unfold State.cputchar
  split <;> rfl

theorem Typing.erase {echoing : Bool} {s : State} {line : List U8}
    (h : Typing echoing s line) (hne : line ≠ []) :
    Typing echoing { s.cputchar echoing 8 with i := s.i - 1 } line.dropLast where
  count := by rw [List.length_dropLast, ← h.count]
  short := by
    rw [List.length_dropLast]
    exact le_trans (Nat.sub_le _ _) h.short
  chars := by
    intro j c hj
    have hjlt := (List.getElem?_eq_some_iff.mp hj).1
    rw [List.length_dropLast] at hjlt
    rw [List.getElem?_dropLast, if_pos hjlt] at hj
    exact (congrFun (s.cputchar_buf echoing 8) j).trans (h.chars j c hj)
  text := fun c hc => h.text c (List.mem_of_mem_dropLast hc)
  shown := by
    intro hecho t ht
    have hfeeds : t.feeds (s.cputchar echoing 8).echo = (t.feeds s.echo).feed 8#8 :=
      cputchar_feeds hecho 8 t
    exact hfeeds ▸ (h.shown hecho t ht).back hne

theorem feed_glyph {c : U8} (h : 32 ≤ c.toNat) (t : Terminal) : t.feed c = t.print (glyph c) := by
  have hother : ∀ d : U8, d.toNat < 32 → c ≠ d := by
    rintro d hd rfl
    omega
  unfold Terminal.feed
  rw [if_neg (hother 8#8 (by decide)), if_neg (hother 10#8 (by decide)),
    if_neg (hother 13#8 (by decide)), if_neg (hother 9#8 (by decide))]
  rfl

theorem Typing.append {echoing : Bool} {s : State} {line : List U8}
    (h : Typing echoing s line) {c : U8} (hc : 32 ≤ c.toNat)
    (hroom : line.length < bufLen - 1) :
    ∃ s', (s.cputchar echoing c.toNat).store c.toNat = some s' ∧
      Typing echoing { s' with i := s.i + 1 } (line ++ [c]) := by
  have hbyte : BitVec.ofInt 8 (c.toNat : Int) = c := by
    rw [BitVec.ofInt_natCast, BitVec.ofNat_toNat, BitVec.setWidth_eq]
  have hlen : (line ++ [c]).length = line.length + 1 := by simp
  have hin : (s.cputchar echoing c.toNat).i < bufLen := by
    rw [s.cputchar_i, h.count]
    omega
  refine ⟨_, if_pos hin, ⟨by rw [hlen, h.count], by rw [hlen]; omega, ?_, ?_, ?_⟩⟩
  · intro j d hj
    dsimp only
    rw [s.cputchar_i, s.cputchar_buf, h.count, hbyte]
    by_cases hnew : j = line.length
    · subst hnew
      rw [List.getElem?_concat_length] at hj
      rw [Function.update_self, Option.some.inj hj]
    · have hjlt := (List.getElem?_eq_some_iff.mp hj).1
      rw [List.getElem?_append_left (by omega)] at hj
      rw [Function.update_of_ne hnew, h.chars j d hj]
  · intro d hd
    rcases List.mem_append.mp hd with hold | hnew
    · exact h.text d hold
    · rwa [List.mem_singleton.mp hnew]
  · intro hecho t ht
    have hfeeds := cputchar_feeds (s := s) hecho c.toNat t
    rw [hbyte, feed_glyph hc] at hfeeds
    dsimp only
    rw [hfeeds]
    exact (h.shown hecho t ht).print c (by omega)

/-- A key that does not end the line. -/
theorem Typing.key {echoing : Bool} {s : State} {line : List U8}
    (h : Typing echoing s line) {c : U8} (hc : c ≠ 10#8 ∧ c ≠ 13#8) :
    ∃ s', (∀ rest, readline echoing ((c.toNat : Int) :: rest) s = readline echoing rest s') ∧
      Typing echoing s' (keyed line c) := by
  have hint : ∀ d : U8, (c.toNat : Int) = (d.toNat : Int) ↔ c = d := by
    intro d
    rw [Int.natCast_inj]
    exact BitVec.toNat_inj
  have hneg : ¬ (c.toNat : Int) < 0 := by omega
  have herase : ((c.toNat : Int) = 8 ∨ (c.toNat : Int) = 0x7f) ↔ Erases c :=
    or_congr (hint 8#8) (hint 0x7f#8)
  have hpos : 0 < s.i ↔ line ≠ [] := by
    rw [h.count]
    exact List.length_pos_iff
  unfold keyed
  by_cases hback : Erases c ∧ line ≠ []
  · refine ⟨_, fun rest => ?_, by rw [if_pos hback]; exact h.erase hback.2⟩
    rw [readline, if_neg hneg, if_pos ⟨herase.mpr hback.1, hpos.mpr hback.2⟩]
  · have hback' : ¬ (((c.toNat : Int) = 8 ∨ (c.toNat : Int) = 0x7f) ∧ 0 < s.i) :=
      fun hboth => hback ⟨herase.mp hboth.1, hpos.mp hboth.2⟩
    rw [if_neg hback]
    by_cases hroom : 32 ≤ c.toNat ∧ line.length < bufLen - 1
    · obtain ⟨s', hstore, htyping⟩ := h.append hroom.1 hroom.2
      refine ⟨_, fun rest => ?_, by rw [if_pos hroom]; exact htyping⟩
      have hroom' : (32 : Int) ≤ c.toNat ∧ s.i < bufLen - 1 := by
        rw [h.count]
        exact ⟨by exact_mod_cast hroom.1, hroom.2⟩
      rw [readline, if_neg hneg, if_neg hback', if_pos hroom', hstore]
      rfl
    · have hroom' : ¬ ((32 : Int) ≤ c.toNat ∧ s.i < bufLen - 1) := by
        rw [h.count]
        exact fun hboth => hroom ⟨by exact_mod_cast hboth.1, hboth.2⟩
      have hend : ¬ ((c.toNat : Int) = 10 ∨ (c.toNat : Int) = 13) :=
        not_or.mpr ⟨fun heq => hc.1 ((hint 10#8).mp heq), fun heq => hc.2 ((hint 13#8).mp heq)⟩
      refine ⟨s, fun rest => ?_, by rw [if_neg hroom]; exact h⟩
      rw [readline, if_neg hneg, if_neg hback', if_neg hroom', if_neg hend]

/-- The keys before the return key. -/
theorem Typing.keys {echoing : Bool} {s : State} {line : List U8}
    (h : Typing echoing s line) {cs : List U8} (hcs : ∀ c ∈ cs, c ≠ 10#8 ∧ c ≠ 13#8) :
    ∃ s', (∀ rest, readline echoing (cs.map (fun c => (c.toNat : Int)) ++ rest) s
        = readline echoing rest s') ∧ Typing echoing s' (cs.foldl keyed line) := by
  induction cs generalizing s line with
  | nil => exact ⟨s, fun _ => rfl, h⟩
  | cons c cs ih =>
      obtain ⟨s₁, hstep, h₁⟩ := h.key (hcs c List.mem_cons_self)
      obtain ⟨s', hrest, h'⟩ := ih h₁ (fun d hd => hcs d (List.mem_cons_of_mem _ hd))
      refine ⟨s', fun rest => ?_, h'⟩
      rw [List.map_cons, List.cons_append, hstep, hrest]

/-- The return key. -/
theorem Typing.ret {echoing : Bool} {s : State} {line : List U8}
    (h : Typing echoing s line) {ret : U8} (hret : ret = 10#8 ∨ ret = 13#8) :
    ∃ s', readline echoing [(ret.toNat : Int)] s = some (.line s') ∧ Holds s'.buf line ∧
      (echoing = true → s'.echo = s.echo ++ [10#8]) := by
  have hlt : (s.cputchar echoing 10).i < bufLen := by
    have hshort := h.short
    rw [s.cputchar_i, h.count]
    exact Nat.lt_of_le_of_lt hshort (by decide)
  refine ⟨{ s.cputchar echoing 10 with
      buf := Function.update (s.cputchar echoing 10).buf (s.cputchar echoing 10).i 0#8 },
    ?_, ⟨?_, ?_, ?_⟩, ?_⟩
  · rcases hret with rfl | rfl
    · simp only [readline, State.store, if_pos hlt]
      rfl
    · simp only [readline, State.store, if_pos hlt]
      rfl
  · intro j c hj
    have hjlt := (List.getElem?_eq_some_iff.mp hj).1
    dsimp only
    rw [State.cputchar_i, State.cputchar_buf, h.count, Function.update_of_ne (by omega)]
    exact h.chars j c hj
  · dsimp only
    rw [State.cputchar_i, State.cputchar_buf, h.count, Function.update_self]
  · intro hzero
    exact absurd (h.text _ hzero) (by decide)
  · intro hecho
    subst hecho
    rfl

/-- What `readline` makes of all keys: the line as it keeps it, which the echo shows. -/
theorem readline_returns (echoing : Bool) (buf : Nat → U8) {cs : List U8}
    (hcs : ∀ c ∈ cs, c ≠ 10#8 ∧ c ≠ 13#8) {ret : U8} (hret : ret = 10#8 ∨ ret = 13#8) :
    ∃ s, readline echoing ((cs ++ [ret]).map (fun c => (c.toNat : Int))) (start buf)
        = some (.line s) ∧ Holds s.buf (typed cs) ∧
      (echoing = true → ∃ echo, s.echo = echo ++ [10#8] ∧
        ∀ t, Clear t → Shown t (t.feeds echo) (typed cs)) := by
  obtain ⟨s₁, hkeys, htyping⟩ := (Typing.start echoing buf).keys hcs
  obtain ⟨s', hline, hholds, hecho⟩ := htyping.ret hret
  refine ⟨s', ?_, hholds, fun he => ⟨s₁.echo, hecho he, htyping.shown he⟩⟩
  rw [List.map_append, hkeys]
  exact hline

/-- A buffer holds one line. -/
theorem Holds.unique {buf : Nat → U8} {line line' : List U8} (h : Holds buf line)
    (h' : Holds buf line') : line = line' := by
  have hshort : ∀ {l l' : List U8}, Holds buf l → Holds buf l' → l'.length ≤ l.length := by
    intro l l' hl hl'
    by_contra hlt
    have hget : l'[l.length]? = some 0#8 := by
      rw [List.getElem?_eq_getElem (by omega)]
      exact congrArg some ((hl'.chars _ _ (List.getElem?_eq_getElem (by omega))).symm.trans hl.nul)
    exact hl'.text (List.mem_of_getElem? hget)
  have hlen : line.length = line'.length := Nat.le_antisymm (hshort h' h) (hshort h h')
  refine List.ext_getElem hlen (fun j hj hj' => ?_)
  exact (h.chars j _ (List.getElem?_eq_getElem hj)).symm.trans
    (h'.chars j _ (List.getElem?_eq_getElem hj'))

/-- `readline` returns the line that is meant exactly if no delete key that came on an
empty line is left. -/
theorem readline_meets_iff (echoing : Bool) (buf : Nat → U8) (cs : List U8) (ret : U8)
    (hcs : ∀ c ∈ cs, c ≠ 10#8 ∧ c ≠ 13#8) (hret : ret = 10#8 ∨ ret = 13#8) :
    Meets echoing buf cs ret ↔ ¬ Stays cs := by
  obtain ⟨s, hline, hholds, hecho⟩ := readline_returns echoing buf hcs hret
  rw [← typed_eq_edited_iff]
  constructor
  · rintro ⟨s', hline', hholds', -⟩
    cases hline.symm.trans hline'
    exact hholds.unique hholds'
  · intro heq
    unfold Meets
    rw [← heq]
    exact ⟨s, hline, hholds, hecho⟩

/-- A delete key on an empty line, and one on a line with a letter. -/
theorem readline_meets_letter :
    Meets true (fun _ => 0#8) [97#8, 0x7f#8] 10#8 ↔ ¬ Stays [97#8, 0x7f#8] :=
  readline_meets_iff true (fun _ => 0#8) [97#8, 0x7f#8] 10#8 (by decide) (Or.inl rfl)

/-- After a delete key and the return key, the line is not empty. -/
theorem readline_keeps_delete : ¬ Meets true (fun _ => 0#8) [0x7f#8] 10#8 := by
  have hkeys : ∀ c ∈ [0x7f#8], c ≠ 10#8 ∧ c ≠ 13#8 := by decide
  have hret : 10#8 = 10#8 ∨ 10#8 = 13#8 := Or.inl rfl
  obtain ⟨s, hline, hholds, -⟩ := readline_returns true (fun _ => 0#8) hkeys hret
  rintro ⟨s', hline', hholds', -⟩
  cases hline.symm.trans hline'
  exact absurd (hholds.unique hholds') (by decide)

end Readline
end Jos

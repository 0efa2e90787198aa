import Mathlib.Data.Fin.Basic
import Mathlib.Logic.Function.Basic
import Jos.Mmu

/-!
# Console output

`cga_putc` keeps a cursor of 16 bits into the 2000 cells of the text screen.  A tab calls
`cons_putc` again, which comes back to `cga_putc` five times, and only then looks whether
the screen must move up.

What the screen shows is what a terminal of 25 rows and 80 columns shows, whose cursor
is a row and a column.
-/

namespace Jos
namespace ConsoleScreen

/-! ## The code -/

def crtRows : Nat := 25
def crtCols : Nat := 80
def crtSize : Nat := crtRows * crtCols

/-- A blank, black on white. -/
def blank : U16 := 0x0700#16 ||| 32#16

/-- The text screen and its cursor, where the 6845 shows the cursor, and the bytes that
went to the serial and to the parallel port. -/
structure Screen where
  crtBuf : Nat → U16
  crtPos : U16
  cursor : U16
  serial : List U8
  lpt : List U8

/-- `crt_buf[i]`, if there is such a cell. -/
def Screen.load (s : Screen) (i : Nat) : Option U16 :=
  if i < crtSize then some (s.crtBuf i) else none

/-- `crt_buf[i] = v`, if there is such a cell. -/
def Screen.store (s : Screen) (i : Nat) (v : U16) : Option Screen :=
  if i < crtSize then some { s with crtBuf := Function.update s.crtBuf i v } else none

/-- Stores in the cells from `base` on. -/
def Screen.storeAll (s : Screen) (base n : Nat) (v : Nat → Option U16) : Option Screen :=
  (List.range n).foldlM (fun s i => (v i).bind (s.store (base + i))) s

/-- The line by which the screen moves up, at the end of `cga_putc`. -/
def Screen.scroll (s : Screen) : Option Screen :=
  if crtSize ≤ s.crtPos.toNat then
    ((s.storeAll 0 (crtSize - crtCols) (fun i => s.load (crtCols + i))).bind (fun s =>
      s.storeAll (crtSize - crtCols) crtCols (fun _ => some blank))).map (fun s =>
        { s with crtPos := s.crtPos - BitVec.ofNat 16 crtCols })
  else some s

/-- `move that little blinky thing`: the high and the low byte of the position. -/
def Screen.moveCursor (s : Screen) : Screen :=
  { s with cursor := (s.crtPos >>> 8).setWidth 8 ++ s.crtPos.setWidth 8 }

def Screen.carriageReturn (s : Screen) : Screen :=
  { s with crtPos := s.crtPos - s.crtPos % BitVec.ofNat 16 crtCols }

/-- `cga_putc`, with the function that a tab calls. -/
def cgaPutc (consPutc : U32 → Screen → Option Screen) (c : U32) (s : Screen) :
    Option Screen :=
  let c := if c &&& ~~~0xFF#32 = 0#32 then c ||| 0x0700#32 else c
  let shown :=
    if c &&& 0xFF#32 = 8#32 then
      if 0 < s.crtPos.toNat then
        { s with crtPos := s.crtPos - 1#16 }.store (s.crtPos - 1#16).toNat
          ((c &&& ~~~0xFF#32 ||| 32#32).setWidth 16)
      else some s
    else if c &&& 0xFF#32 = 10#32 then
      some { s with crtPos := s.crtPos + BitVec.ofNat 16 crtCols }.carriageReturn
    else if c &&& 0xFF#32 = 13#32 then some s.carriageReturn
    else if c &&& 0xFF#32 = 9#32 then
      (consPutc 32#32 s).bind (fun s => (consPutc 32#32 s).bind (fun s =>
        (consPutc 32#32 s).bind (fun s => (consPutc 32#32 s).bind (consPutc 32#32))))
    else
      (s.store s.crtPos.toNat (c.setWidth 16)).map (fun s' =>
        { s' with crtPos := s.crtPos + 1#16 })
  (shown.bind Screen.scroll).map Screen.moveCursor

def serialPutc (c : U32) (s : Screen) : Screen :=
  { s with serial := s.serial ++ [c.setWidth 8] }

def lptPutc (c : U32) (s : Screen) : Screen :=
  { s with lpt := s.lpt ++ [c.setWidth 8] }

/-- `cons_putc`, in at most so many calls inside each other. -/
def consPutc : Nat → U32 → Screen → Option Screen
  | 0, _, _ => none
  | depth + 1, c, s => cgaPutc (consPutc depth) c (lptPutc c (serialPutc c s))

/-- `cputchar`: a tab is the deepest it gets. -/
def cputchar (c : U8) (s : Screen) : Option Screen := consPutc 2 (c.setWidth 32) s

/-- `cputchar` for one character after the other. -/
def cputchars (s : Screen) : List U8 → Option Screen
  | [] => some s
  | c :: cs => (cputchar c s).bind (fun s => cputchars s cs)

/-! ## The terminal -/

/-- A terminal with a cell at each place, and the place of its cursor. -/
structure Terminal where
  cell : Fin crtRows → Fin crtCols → U16
  row : Fin crtRows
  col : Fin crtCols

namespace Terminal

def col0 : Fin crtCols := ⟨0, by decide⟩
def lastCol : Fin crtCols := ⟨crtCols - 1, by decide⟩

/-- The rows one higher, and a blank one below. -/
def scrolled (cell : Fin crtRows → Fin crtCols → U16) : Fin crtRows → Fin crtCols → U16 :=
  fun r c => if h : r.val + 1 < crtRows then cell ⟨r.val + 1, h⟩ c else blank

/-- To the beginning of the next line; from the last one, the screen moves up. -/
def newline (t : Terminal) : Terminal :=
  if h : t.row.val + 1 < crtRows then { t with row := ⟨t.row.val + 1, h⟩, col := col0 }
  else { t with cell := scrolled t.cell, col := col0 }

/-- The cell at the cursor. -/
def put (t : Terminal) (v : U16) : Terminal :=
  { t with cell := Function.update t.cell t.row (Function.update (t.cell t.row) t.col v) }

/-- A character at the cursor, which moves on, and at the end of the line to the next. -/
def print (t : Terminal) (v : U16) : Terminal :=
  if h : t.col.val + 1 < crtCols then { t.put v with col := ⟨t.col.val + 1, h⟩ }
  else (t.put v).newline

/-- One place back, maybe to the end of the previous line. -/
def back (t : Terminal) : Option Terminal :=
  if t.col.val = 0 then
    if t.row.val = 0 then none
    else some { t with row := ⟨t.row.val - 1, by omega⟩, col := lastCol }
  else some { t with col := ⟨t.col.val - 1, by omega⟩ }

/-- One character. -/
def feed (t : Terminal) (c : U8) : Terminal :=
  if c = 8#8 then (t.back.map (·.put blank)).getD t
  else if c = 10#8 then t.newline
  else if c = 13#8 then { t with col := col0 }
  else if c = 9#8 then ((((t.print blank).print blank).print blank).print blank).print blank
  else t.print (0x0700#16 ||| c.setWidth 16)

/-- One character after the other. -/
def feeds (t : Terminal) (cs : List U8) : Terminal := cs.foldl feed t

end Terminal

/-- The cells are those of the terminal. -/
def Cells (s : Screen) (t : Terminal) : Prop :=
  ∀ (r : Fin crtRows) (c : Fin crtCols), s.crtBuf (crtCols * r.val + c.val) = t.cell r c

/-- The screen is that of the terminal. -/
structure Shows (s : Screen) (t : Terminal) : Prop where
  pos : s.crtPos.toNat = crtCols * t.row.val + t.col.val
  cells : Cells s t

/-! ## The screen -/

/-- Places are cells of the screen. -/
theorem place_lt (r : Fin crtRows) (c : Fin crtCols) : crtCols * r.val + c.val < crtSize := by
  have hr := r.isLt
  have hc := c.isLt
  simp only [crtRows, crtCols, crtSize] at *
  omega

/-- Different places are different cells. -/
theorem place_inj {r r' : Fin crtRows} {c c' : Fin crtCols}
    (h : crtCols * r.val + c.val = crtCols * r'.val + c'.val) : r = r' ∧ c = c' := by
  have hc := c.isLt
  have hc' := c'.isLt
  simp only [crtCols] at *
  exact ⟨Fin.ext (by omega), Fin.ext (by omega)⟩

/-- Stores inside the screen. -/
theorem storeAll_eq {s : Screen} {base n : Nat} {v : Nat → Option U16} {w : Nat → U16}
    (hin : base + n ≤ crtSize) (hv : ∀ i, i < n → v i = some (w i)) :
    s.storeAll base n v = some { s with
      crtBuf := fun j => if base ≤ j ∧ j < base + n then w (j - base) else s.crtBuf j } := by
  unfold Screen.storeAll
  induction n with
  | zero =>
      have hnone : ∀ j, ¬ (base ≤ j ∧ j < base + 0) := by omega
      simp only [hnone, if_false, List.range_zero]
      rfl
  | succ n ih =>
      have hlast : base + n < crtSize := by omega
      rw [List.range_succ, List.foldlM_append, ih (by omega) (fun i hi => hv i (by omega))]
      simp only [Option.bind_eq_bind, Option.bind_some, List.foldlM_cons, List.foldlM_nil,
        hv n (Nat.lt_succ_self n), Screen.store, if_pos hlast]
      refine congrArg (fun b => some { s with crtBuf := b }) (funext fun j => ?_)
      by_cases hj : j = base + n
      · subst hj
        rw [Function.update_self, if_pos (by omega), Nat.add_sub_cancel_left]
      · rw [Function.update_of_ne hj]
        by_cases hold : base ≤ j ∧ j < base + n
        · rw [if_pos hold, if_pos (by omega)]
        · rw [if_neg hold, if_neg (by omega)]

/-- The store at the cursor of the terminal. -/
theorem Cells.store {s : Screen} {t : Terminal} (h : Cells s t) (v : U16) :
    ∃ s', s.store (crtCols * t.row.val + t.col.val) v = some s' ∧
      Cells s' (t.put v) ∧ s'.crtPos = s.crtPos := by
  refine ⟨_, if_pos (place_lt _ _), ?_, rfl⟩
  intro r c
  by_cases hplace : crtCols * r.val + c.val = crtCols * t.row.val + t.col.val
  · obtain ⟨rfl, rfl⟩ := place_inj hplace
    simp only [Terminal.put, Function.update_self]
  · dsimp only [Terminal.put]
    rw [Function.update_of_ne hplace, h r c]
    by_cases hr : r = t.row
    · subst hr
      have hc : c ≠ t.col := fun heq => hplace (by rw [heq])
      rw [Function.update_self, Function.update_of_ne hc]
    · rw [Function.update_of_ne hr]

/-- A cursor on the screen leaves it where it is. -/
theorem Shows.scroll {s : Screen} {t : Terminal} (h : Shows s t) : s.scroll = some s :=
  if_neg (by rw [h.pos]; exact Nat.not_le.mpr (place_lt _ _))

/-- What is in the cells after the screen has moved up. -/
def movedUp (buf : Nat → U16) (j : Nat) : U16 :=
  if j < crtSize - crtCols then buf (crtCols + j) else if j < crtSize then blank else buf j

theorem scroll_movedUp {s : Screen} (h : crtSize ≤ s.crtPos.toNat) :
    s.scroll = some { s with
      crtBuf := movedUp s.crtBuf
      crtPos := s.crtPos - BitVec.ofNat 16 crtCols } := by
  have hload : ∀ i, i < crtSize - crtCols →
      s.load (crtCols + i) = some (s.crtBuf (crtCols + i)) := by
    intro i hi
    exact if_pos (by simp only [crtSize, crtRows, crtCols] at *; omega)
  have hsize : crtSize = 2000 := rfl
  have hcols : crtCols = 80 := rfl
  have hmoved : (fun j => if crtSize - crtCols ≤ j ∧ j < crtSize - crtCols + crtCols then blank
      else if 0 ≤ j ∧ j < 0 + (crtSize - crtCols) then s.crtBuf (crtCols + (j - 0))
      else s.crtBuf j) = movedUp s.crtBuf := by
    funext j
    unfold movedUp
    by_cases hj : j < crtSize - crtCols
    · rw [if_neg (by omega), if_pos (by omega), if_pos hj, Nat.sub_zero]
    · by_cases hj' : j < crtSize
      · rw [if_pos (by omega), if_neg hj, if_pos hj']
      · rw [if_neg (by omega), if_neg (by omega), if_neg hj, if_neg hj']
  unfold Screen.scroll
  rw [if_pos h, storeAll_eq (by decide) hload, Option.bind_some,
    storeAll_eq (by decide) (fun _ _ => rfl), Option.map_some]
  dsimp only
  rw [hmoved]

/-- The cursor goes to the line below, if need be after the screen has moved up. -/
theorem Cells.newline {s : Screen} {t : Terminal} (h : Cells s t)
    (hpos : s.crtPos.toNat = crtCols * (t.row.val + 1)) :
    ∃ s', s.scroll = some s' ∧ Shows s' t.newline := by
  unfold Terminal.newline
  split
  · rename_i hrow
    have hshows : Shows s { t with row := ⟨t.row.val + 1, hrow⟩, col := Terminal.col0 } :=
      ⟨hpos, h⟩
    exact ⟨s, hshows.scroll, hshows⟩
  · rename_i hrow
    have hlast : t.row.val = crtRows - 1 := by
      have hlt := t.row.isLt
      omega
    have hfull : s.crtPos.toNat = crtSize := by rw [hpos, hlast]; rfl
    refine ⟨_, scroll_movedUp hfull.ge, ?_, ?_⟩
    · simp only [BitVec.toNat_sub, hfull, hlast, Terminal.col0]
      decide
    · intro r c
      have hsize : crtSize = 2000 := rfl
      have hrows : crtRows = 25 := rfl
      have hcols : crtCols = 80 := rfl
      have hr := r.isLt
      have hc := c.isLt
      have hrow : crtCols * r.val = 80 * r.val := rfl
      have hnextRow : crtCols * (r.val + 1) = 80 * (r.val + 1) := rfl
      unfold Terminal.scrolled
      dsimp only [movedUp]
      by_cases hnext : r.val + 1 < crtRows
      · rw [if_pos (by omega), dif_pos hnext, ← h ⟨r.val + 1, hnext⟩ c]
        exact congrArg s.crtBuf (by dsimp only; omega)
      · rw [if_neg (by omega), if_pos (by omega), dif_neg hnext]

/-- The cursor is behind a character that has been stored. -/
theorem Cells.print {s : Screen} {t : Terminal} {v : U16} (h : Cells s (t.put v))
    (hpos : s.crtPos.toNat = crtCols * t.row.val + t.col.val + 1) :
    ∃ s', s.scroll = some s' ∧ Shows s' (t.print v) := by
  unfold Terminal.print
  split
  · rename_i hcol
    have hshows : Shows s { t.put v with col := ⟨t.col.val + 1, hcol⟩ } := ⟨hpos, h⟩
    exact ⟨s, hshows.scroll, hshows⟩
  · rename_i hcol
    refine h.newline ?_
    have hlast : t.col.val + 1 = crtCols := by
      have hlt := t.col.isLt
      omega
    rw [hpos, Nat.mul_succ, Nat.add_assoc, hlast]
    rfl

/-- The end of `cga_putc` when the switch has left the cursor on the screen. -/
theorem Shows.settle {s : Screen} {t : Terminal} (h : Shows s t) :
    ∃ s', ((some s).bind Screen.scroll).map Screen.moveCursor = some s' ∧ Shows s' t :=
  ⟨s.moveCursor, by rw [Option.bind_some, h.scroll]; rfl, h.pos, h.cells⟩

/-! ## One character -/

/-- What `cga_putc` makes of a character that comes without an attribute. -/
theorem blackOnWhite (c : U8) :
    c.setWidth 32 &&& ~~~0xFF#32 = 0#32 ∧
      (c.setWidth 32 ||| 0x0700#32) &&& 0xFF#32 = c.setWidth 32 ∧
      (c.setWidth 32 ||| 0x0700#32) &&& ~~~0xFF#32 ||| 32#32 = 0x0720#32 ∧
      (c.setWidth 32 ||| 0x0700#32).setWidth 16 = 0x0700#16 ||| c.setWidth 16 := by
  revert c
  decide +kernel

theorem setWidth_eq_iff (c d : U8) : c.setWidth 32 = d.setWidth 32 ↔ c = d := by
  constructor
  · intro h
    have hnat := congrArg BitVec.toNat h
    have hc := c.isLt
    have hd := d.isLt
    simp only [BitVec.toNat_setWidth] at hnat
    exact BitVec.eq_of_toNat_eq (by omega)
  · exact fun h => h ▸ rfl

/-- A character that is printed. -/
def Plain (c : U8) : Prop := c ≠ 8#8 ∧ c ≠ 10#8 ∧ c ≠ 13#8 ∧ c ≠ 9#8

theorem Shows.plain {s : Screen} {t : Terminal} (h : Shows s t)
    (consPutc : U32 → Screen → Option Screen) {c : U8} (hc : Plain c) :
    ∃ s', cgaPutc consPutc (c.setWidth 32) s = some s' ∧
      Shows s' (t.print (0x0700#16 ||| c.setWidth 16)) := by
  obtain ⟨hbare, hlow, -, hcell⟩ := blackOnWhite c
  obtain ⟨h8, h10, h13, h9⟩ := hc
  have hc8 : c.setWidth 32 ≠ 8#32 := fun heq => h8 ((setWidth_eq_iff c 8#8).mp heq)
  have hc10 : c.setWidth 32 ≠ 10#32 := fun heq => h10 ((setWidth_eq_iff c 10#8).mp heq)
  have hc13 : c.setWidth 32 ≠ 13#32 := fun heq => h13 ((setWidth_eq_iff c 13#8).mp heq)
  have hc9 : c.setWidth 32 ≠ 9#32 := fun heq => h9 ((setWidth_eq_iff c 9#8).mp heq)
  obtain ⟨s₁, hstore, hcells, hpos⟩ := h.cells.store (0x0700#16 ||| c.setWidth 16)
  have hbehind : ({ s₁ with crtPos := s.crtPos + 1#16 } : Screen).crtPos.toNat
      = crtCols * t.row.val + t.col.val + 1 := by
    have hlt := place_lt t.row t.col
    simp only [BitVec.toNat_add, h.pos, BitVec.toNat_ofNat, crtSize, crtRows, crtCols] at hlt ⊢
    omega
  obtain ⟨s₂, hscroll, hshows⟩ :=
    Cells.print (s := { s₁ with crtPos := s.crtPos + 1#16 }) hcells hbehind
  refine ⟨s₂.moveCursor, ?_, hshows.pos, hshows.cells⟩
  unfold cgaPutc
  dsimp only
  rw [if_pos hbare, hlow, if_neg hc8, if_neg hc10, if_neg hc13, if_neg hc9, hcell, h.pos, hstore]
  dsimp only [Option.map_some, Option.bind_some]
  rw [hscroll]
  rfl

/-- `cons_putc` does not touch the screen before `cga_putc` does. -/
theorem Shows.ports {s : Screen} {t : Terminal} (h : Shows s t) (c : U32) :
    Shows (lptPutc c (serialPutc c s)) t := ⟨h.pos, h.cells⟩

/-- The blanks of a tab. -/
theorem Shows.blank {s : Screen} {t : Terminal} (h : Shows s t) :
    ∃ s', consPutc 1 32#32 s = some s' ∧ Shows s' (t.print blank) :=
  (h.ports 32#32).plain (consPutc 0) (c := 32#8) (by unfold Plain; decide)

/-- The place before one that is not the first. -/
theorem Terminal.back_eq (t : Terminal) (h : crtCols * t.row.val + t.col.val ≠ 0) :
    ∃ u : Terminal, t.back = some u ∧
      crtCols * u.row.val + u.col.val = crtCols * t.row.val + t.col.val - 1 ∧
      u.cell = t.cell := by
  have hlt := t.row.isLt
  by_cases hcol : t.col.val = 0
  · have hrow : t.row.val ≠ 0 := by
      intro hrow
      rw [hrow, hcol] at h
      exact h rfl
    refine ⟨{ t with row := ⟨t.row.val - 1, by omega⟩, col := lastCol }, ?_, ?_, rfl⟩
    · unfold Terminal.back
      rw [if_pos hcol, if_neg hrow]
    · simp only [lastCol, crtCols, hcol]
      omega
  · have hltc := t.col.isLt
    refine ⟨{ t with col := ⟨t.col.val - 1, by omega⟩ }, ?_, ?_, rfl⟩
    · unfold Terminal.back
      rw [if_neg hcol]
    · dsimp only
      omega

theorem Shows.backspace {s : Screen} {t : Terminal} (h : Shows s t)
    (consPutc : U32 → Screen → Option Screen) :
    ∃ s', cgaPutc consPutc 8#32 s = some s' ∧
      Shows s' ((t.back.map (·.put ConsoleScreen.blank)).getD t) := by
  have hswitch : ∀ s₁, (if 0 < s.crtPos.toNat then
        { s with crtPos := s.crtPos - 1#16 }.store (s.crtPos - 1#16).toNat
          ((0x0708#32 &&& ~~~0xFF#32 ||| 32#32).setWidth 16)
      else some s) = some s₁ →
      Shows s₁ ((t.back.map (·.put ConsoleScreen.blank)).getD t) →
      ∃ s', cgaPutc consPutc 8#32 s = some s' ∧
        Shows s' ((t.back.map (·.put ConsoleScreen.blank)).getD t) := by
    intro s₁ heq hshows
    obtain ⟨s₂, hsettle, hshows₂⟩ := hshows.settle
    exact ⟨s₂, (congrArg (fun o => (o.bind Screen.scroll).map Screen.moveCursor) heq).trans
      hsettle, hshows₂⟩
  have hlt := place_lt t.row t.col
  by_cases hzero : s.crtPos.toNat = 0
  · -- at the first place nothing happens
    have hplace := h.pos.symm.trans hzero
    have hrow : t.row.val = 0 := by
      have hmul := (Nat.add_eq_zero_iff.mp hplace).1
      exact (Nat.mul_eq_zero.mp hmul).resolve_left (by decide)
    have hcol : t.col.val = 0 := (Nat.add_eq_zero_iff.mp hplace).2
    have hback : t.back = none := by rw [Terminal.back, if_pos hcol, if_pos hrow]
    exact hswitch s (if_neg (by omega)) (by rw [hback]; exact h)
  · have hprev : (s.crtPos - 1#16).toNat = s.crtPos.toNat - 1 := by
      have h16 := s.crtPos.isLt
      simp only [BitVec.toNat_sub, BitVec.toNat_ofNat]
      omega
    obtain ⟨u, hback, hu, hcell⟩ := t.back_eq (h.pos ▸ hzero)
    rw [← h.pos] at hu
    have hcells : Cells { s with crtPos := s.crtPos - 1#16 } u := by
      intro r c
      rw [hcell]
      exact h.cells r c
    obtain ⟨s₁, hstore, hcells₁, hpos₁⟩ := hcells.store ConsoleScreen.blank
    refine hswitch s₁ ?_ ?_
    · rw [if_pos (by omega), hprev, ← hu]
      exact hstore
    · rw [hback]
      exact ⟨by rw [hpos₁, hprev, ← hu]; rfl, hcells₁⟩

theorem Screen.carriageReturn_toNat (s : Screen) :
    s.carriageReturn.crtPos.toNat = s.crtPos.toNat - s.crtPos.toNat % crtCols := by
  have hlt := s.crtPos.isLt
  have hcols : (BitVec.ofNat 16 crtCols).toNat = crtCols := rfl
  simp only [Screen.carriageReturn, BitVec.toNat_sub, BitVec.toNat_umod, hcols]
  simp only [crtCols]
  omega

theorem Shows.newline {s : Screen} {t : Terminal} (h : Shows s t)
    (consPutc : U32 → Screen → Option Screen) :
    ∃ s', cgaPutc consPutc 10#32 s = some s' ∧ Shows s' t.newline := by
  have hlt := place_lt t.row t.col
  have hcol := t.col.isLt
  have hpos := h.pos
  have hrow : (({ s with crtPos := s.crtPos + BitVec.ofNat 16 crtCols } :
      Screen).carriageReturn).crtPos.toNat = crtCols * (t.row.val + 1) := by
    rw [Screen.carriageReturn_toNat]
    simp only [BitVec.toNat_add, BitVec.toNat_ofNat, crtSize, crtRows, crtCols] at hlt hpos ⊢
    omega
  have hcells : Cells ({ s with crtPos := s.crtPos + BitVec.ofNat 16 crtCols } :
      Screen).carriageReturn t := h.cells
  obtain ⟨s₁, hscroll, hshows⟩ := hcells.newline hrow
  refine ⟨s₁.moveCursor, ?_, hshows.pos, hshows.cells⟩
  exact congrArg (fun o => o.map Screen.moveCursor) hscroll

theorem Shows.carriageReturn {s : Screen} {t : Terminal} (h : Shows s t)
    (consPutc : U32 → Screen → Option Screen) :
    ∃ s', cgaPutc consPutc 13#32 s = some s' ∧
      Shows s' { t with col := Terminal.col0 } := by
  have hcol := t.col.isLt
  have hpos := h.pos
  have hshows : Shows s.carriageReturn { t with col := Terminal.col0 } := by
    refine ⟨?_, h.cells⟩
    rw [Screen.carriageReturn_toNat]
    simp only [Terminal.col0, crtCols] at hpos hcol ⊢
    omega
  exact hshows.settle

/-- A tab: `cga_putc` comes back for five blanks. -/
theorem Shows.tab {s : Screen} {t : Terminal} (h : Shows s t) :
    ∃ s', cgaPutc (consPutc 1) 9#32 s = some s' ∧
      Shows s' (((((t.print ConsoleScreen.blank).print ConsoleScreen.blank).print
        ConsoleScreen.blank).print ConsoleScreen.blank).print ConsoleScreen.blank) := by
  obtain ⟨s₁, h₁, hs₁⟩ := h.blank
  obtain ⟨s₂, h₂, hs₂⟩ := hs₁.blank
  obtain ⟨s₃, h₃, hs₃⟩ := hs₂.blank
  obtain ⟨s₄, h₄, hs₄⟩ := hs₃.blank
  obtain ⟨s₅, h₅, hs₅⟩ := hs₄.blank
  obtain ⟨s', hsettle, hs'⟩ := hs₅.settle
  refine ⟨s', ?_, hs'⟩
  have hfive : (consPutc 1 32#32 s).bind (fun s => (consPutc 1 32#32 s).bind (fun s =>
      (consPutc 1 32#32 s).bind (fun s => (consPutc 1 32#32 s).bind (consPutc 1 32#32))))
      = some s₅ := by
    rw [h₁, Option.bind_some, h₂, Option.bind_some, h₃, Option.bind_some, h₄, Option.bind_some,
      h₅]
  exact (congrArg (fun o => (o.bind Screen.scroll).map Screen.moveCursor) hfive).trans hsettle

/-- One character keeps the screen that of the terminal. -/
theorem Shows.cputchar {s : Screen} {t : Terminal} (h : Shows s t) (c : U8) :
    ∃ s', ConsoleScreen.cputchar c s = some s' ∧ Shows s' (t.feed c) := by
  have hports := h.ports (c.setWidth 32)
  unfold Terminal.feed
  by_cases h8 : c = 8#8
  · subst h8
    exact hports.backspace (consPutc 1)
  · rw [if_neg h8]
    by_cases h10 : c = 10#8
    · subst h10
      exact hports.newline (consPutc 1)
    · rw [if_neg h10]
      by_cases h13 : c = 13#8
      · subst h13
        exact hports.carriageReturn (consPutc 1)
      · rw [if_neg h13]
        by_cases h9 : c = 9#8
        · subst h9
          exact hports.tab
        · rw [if_neg h9]
          exact hports.plain (consPutc 1) ⟨h8, h10, h13, h9⟩

/-! ## All characters -/

theorem Shows.cputchars {s : Screen} {t : Terminal} (h : Shows s t) (cs : List U8) :
    ∃ s', ConsoleScreen.cputchars s cs = some s' ∧ Shows s' (t.feeds cs) := by
  induction cs generalizing s t with
  | nil => exact ⟨s, rfl, h⟩
  | cons c cs ih =>
      obtain ⟨s₁, hone, hs₁⟩ := h.cputchar c
      obtain ⟨s', hrest, hs'⟩ := ih hs₁
      exact ⟨s', by rw [ConsoleScreen.cputchars, hone]; exact hrest, hs'⟩

/-- Every screen whose cursor is on it is that of one terminal. -/
theorem exists_shows {s : Screen} (h : s.crtPos.toNat < crtSize) : ∃ t, Shows s t := by
  have hrow : s.crtPos.toNat / crtCols < crtRows :=
    Nat.div_lt_of_lt_mul (by rwa [Nat.mul_comm])
  have hcol : s.crtPos.toNat % crtCols < crtCols := Nat.mod_lt _ (by decide)
  exact ⟨{ cell := fun r c => s.crtBuf (crtCols * r.val + c.val)
           row := ⟨_, hrow⟩
           col := ⟨_, hcol⟩ }, (Nat.div_add_mod _ _).symm, fun _ _ => rfl⟩

/-- The screen of the kernel is a terminal of 25 rows and 80 columns, and no cell outside
it is accessed. -/
theorem cputchar_terminal (s : Screen) (h : s.crtPos.toNat < crtSize) (cs : List U8) :
    ∃ t s', Shows s t ∧ cputchars s cs = some s' ∧ s'.crtPos.toNat < crtSize ∧
      Shows s' (t.feeds cs) := by
  obtain ⟨t, ht⟩ := exists_shows h
  obtain ⟨s', hs', hshows⟩ := ht.cputchars cs
  exact ⟨t, s', ht, hs', by rw [hshows.pos]; exact place_lt _ _, hshows⟩

/-- A tab from the last place of a full screen. -/
theorem cputchar_terminal_tab :
    ∃ t s', Shows ⟨fun _ => blank, 1999#16, 1999#16, [], []⟩ t ∧
      cputchars ⟨fun _ => blank, 1999#16, 1999#16, [], []⟩ [97#8, 9#8] = some s' ∧
      s'.crtPos.toNat < crtSize ∧ Shows s' (t.feeds [97#8, 9#8]) :=
  cputchar_terminal _ (by decide) [97#8, 9#8]

end ConsoleScreen
end Jos

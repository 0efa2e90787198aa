import Mathlib.Algebra.Group.Nat.Defs
import Mathlib.Logic.Function.Iterate

/-!
# String instructions of the x86

`movs` and `stos` for operands of any number of bytes, with the direction flag, and the
`rep` prefix.  Addresses are 32 bits wide and go round at the end of the memory.

* `rep_movs_up` and `rep_movs_down`: repeated moves copy a range, also an overlapping
  one, if they go away from the bytes that are still to be read.
* `rep_stos_up`: repeated stores fill a range.
-/

namespace StringInsns

/-- The contents of a memory with 32-bit addresses. -/
abbrev Memory : Type := BitVec 32 → BitVec 8

/-- The memory, the direction flag, and the registers of string instructions. -/
structure Machine where
  mem : Memory
  df : Bool
  edi : BitVec 32
  esi : BitVec 32
  eax : BitVec 32
  ecx : BitVec 32

/-- The memory after `n` bytes have been copied at once. -/
def moved (mem : Memory) (dst src : BitVec 32) (n : Nat) : Memory := fun x =>
  if (x - dst).toNat < n then mem (src + (x - dst)) else mem x

/-- The memory with `n` bytes that are all the same. -/
def filled (mem : Memory) (dst : BitVec 32) (n : Nat) (b : BitVec 8) : Memory := fun x =>
  if (x - dst).toNat < n then b else mem x

/-- Byte `i` of a register. -/
def byteAt (r : BitVec 32) (i : Nat) : BitVec 8 := (r >>> (8 * i)).setWidth 8

/-- An index register after an operand of `w` bytes. -/
def Machine.along (m : Machine) (w : Nat) (a : BitVec 32) : BitVec 32 :=
  if m.df then a - BitVec.ofNat 32 w else a + BitVec.ofNat 32 w

/-- `movsb` and `movsl`: the operand is loaded as a whole, and then stored. -/
def movs (w : Nat) (m : Machine) : Machine :=
  { m with
    mem := moved m.mem m.edi m.esi w
    edi := m.along w m.edi
    esi := m.along w m.esi }

/-- `stosb` and `stosl`. -/
def stos (w : Nat) (m : Machine) : Machine :=
  { m with
    mem := fun x => if (x - m.edi).toNat < w then byteAt m.eax (x - m.edi).toNat else m.mem x
    edi := m.along w m.edi }

/-- The prefix `rep`. -/
def rep (insn : Machine → Machine) (m : Machine) : Machine :=
  { insn^[m.ecx.toNat] m with ecx := 0#32 }

def cld (m : Machine) : Machine := { m with df := false }

def std (m : Machine) : Machine := { m with df := true }

variable {mem : Memory} {m : Machine} {dst src x : BitVec 32} {w n q : Nat} {b : BitVec 8}

/-! ## Distances -/

/-- How far a place is from the end of the first `w` bytes. -/
theorem toNat_sub_add (x d : BitVec 32) (hw : w < 2 ^ 32) :
    (x - (d + BitVec.ofNat 32 w)).toNat =
      if w ≤ (x - d).toNat then (x - d).toNat - w else (x - d).toNat + 2 ^ 32 - w := by
  have hx := x.isLt
  have hd := d.isLt
  simp only [BitVec.toNat_sub, BitVec.toNat_add, BitVec.toNat_ofNat]
  split <;> omega

theorem add_sub_add (s x d e : BitVec 32) : s + e + (x - (d + e)) = s + (x - d) := by
  rw [BitVec.sub_eq_add_neg, BitVec.sub_eq_add_neg, BitVec.neg_add, BitVec.add_assoc]
  congr 1
  rw [BitVec.sub_eq_add_neg, BitVec.add_comm (-d), ← BitVec.add_assoc x, ← BitVec.add_assoc e,
    BitVec.add_comm e, BitVec.add_assoc x, BitVec.add_left_neg, BitVec.add_zero]

/-- How far the source of a place is from the destination. -/
theorem toNat_source (s x d e : BitVec 32) :
    (s + (x - d) - e).toNat = ((s - e).toNat + (x - d).toNat) % 2 ^ 32 := by
  simp only [BitVec.toNat_sub, BitVec.toNat_add]
  omega

theorem toNat_sub_comm (d s : BitVec 32) :
    (s - d).toNat = if (d - s).toNat = 0 then 0 else 2 ^ 32 - (d - s).toNat := by
  have hd := d.isLt
  have hs := s.isLt
  simp only [BitVec.toNat_sub]
  split <;> omega

theorem moved_of_lt (h : (x - dst).toNat < n) : moved mem dst src n x = mem (src + (x - dst)) :=
  if_pos h

theorem moved_of_le (h : n ≤ (x - dst).toNat) : moved mem dst src n x = mem x :=
  if_neg (Nat.not_lt.mpr h)

theorem moved_self : moved mem dst dst n = mem := by
  funext x
  unfold moved
  split
  · rw [BitVec.add_comm, BitVec.sub_add_cancel]
  · rfl

theorem toNat_sub_pos (h : x ≠ dst) : 0 < (x - dst).toNat := by
  have hx := x.isLt
  have hd := dst.isLt
  have hne : x.toNat ≠ dst.toNat := fun heq => h (BitVec.eq_of_toNat_eq heq)
  simp only [BitVec.toNat_sub]
  omega

/-- One byte. -/
theorem moved_one : moved mem dst src 1 = Function.update mem dst (mem src) := by
  funext x
  unfold moved
  by_cases hx : x = dst
  · subst hx
    rw [Function.update_self, BitVec.sub_self, if_pos (by decide), BitVec.add_zero]
  · have hpos := toNat_sub_pos hx
    rw [Function.update_of_ne hx, if_neg (by omega)]

/-! ## Copies -/

/-- The bytes before, and then the ones behind them. -/
theorem moved_append (hw : w < 2 ^ 32) (hall : w + q ≤ 2 ^ 32)
    (hsafe : dst = src ∨ w + q ≤ (dst - src).toNat) :
    moved (moved mem dst src w) (dst + BitVec.ofNat 32 w) (src + BitVec.ofNat 32 w) q
      = moved mem dst src (w + q) := by
  rcases hsafe with rfl | hfar
  · rw [moved_self, moved_self, moved_self]
  · funext x
    have hback := toNat_sub_comm dst src
    have hlt := (dst - src).isLt
    have hk := (x - dst).isLt
    have hend := toNat_sub_add x dst hw
    by_cases hbefore : (x - dst).toNat < w
    · rw [if_neg (by omega)] at hend
      rw [moved_of_le (by omega), moved_of_lt hbefore, moved_of_lt (by omega)]
    · rw [if_pos (by omega)] at hend
      by_cases hin : (x - dst).toNat < w + q
      · -- the source of this byte is not among the first ones
        have hsource := toNat_source src x dst dst
        rw [if_neg (by omega)] at hback
        rw [moved_of_lt (by omega), add_sub_add, moved_of_le (by omega), moved_of_lt hin]
      · rw [moved_of_le (by omega), moved_of_le (by omega), moved_of_le (by omega)]

/-- The bytes behind, and then the ones before them. -/
theorem moved_prepend (hall : q + w ≤ 2 ^ 32) (hq : q < 2 ^ 32)
    (hsafe : dst = src ∨ q + w ≤ (src - dst).toNat) :
    moved (moved mem (dst + BitVec.ofNat 32 q) (src + BitVec.ofNat 32 q) w) dst src q
      = moved mem dst src (q + w) := by
  rcases hsafe with rfl | hfar
  · rw [moved_self, moved_self, moved_self]
  · funext x
    have hlt := (src - dst).isLt
    have hk := (x - dst).isLt
    by_cases hbefore : (x - dst).toNat < q
    · -- the source of this byte is not among the last ones
      have hsource := toNat_source src x dst dst
      have hend := toNat_sub_add (src + (x - dst)) dst hq
      have hout : w ≤ (src + (x - dst) - (dst + BitVec.ofNat 32 q)).toNat := by
        rw [hend]
        split <;> omega
      rw [moved_of_lt hbefore, moved_of_le hout, moved_of_lt (by omega)]
    · have hend := toNat_sub_add x dst hq
      rw [if_pos (by omega)] at hend
      rw [moved_of_le (by omega)]
      by_cases hin : (x - dst).toNat < q + w
      · rw [moved_of_lt (by omega), add_sub_add, moved_of_lt hin]
      · rw [moved_of_le (by omega), moved_of_le (by omega)]

theorem filled_of_lt (h : (x - dst).toNat < n) : filled mem dst n b x = b := if_pos h

theorem filled_of_le (h : n ≤ (x - dst).toNat) : filled mem dst n b x = mem x :=
  if_neg (Nat.not_lt.mpr h)

/-- One byte. -/
theorem filled_one : filled mem dst 1 b = Function.update mem dst b := by
  funext x
  unfold filled
  by_cases hx : x = dst
  · subst hx
    rw [Function.update_self, BitVec.sub_self, if_pos (by decide)]
  · have hpos := toNat_sub_pos hx
    rw [Function.update_of_ne hx, if_neg (by omega)]

/-- The bytes before, and then the ones behind them. -/
theorem filled_append (hw : w < 2 ^ 32) (hall : w + q ≤ 2 ^ 32) :
    filled (filled mem dst w b) (dst + BitVec.ofNat 32 w) q b = filled mem dst (w + q) b := by
  funext x
  have hk := (x - dst).isLt
  have hend := toNat_sub_add x dst hw
  by_cases hbefore : (x - dst).toNat < w
  · rw [if_neg (by omega)] at hend
    rw [filled_of_le (by omega), filled_of_lt hbefore, filled_of_lt (by omega)]
  · rw [if_pos (by omega)] at hend
    by_cases hin : (x - dst).toNat < w + q
    · rw [filled_of_lt (by omega), filled_of_lt hin]
    · rw [filled_of_le (by omega), filled_of_le (by omega), filled_of_le (by omega)]

/-! ## Repeated instructions -/

/-- Moves upwards, away from what is still to be read. -/
theorem iterate_movs_up (hdf : m.df = false) (hw : w < 2 ^ 32) (hn : w * n ≤ 2 ^ 32)
    (hsafe : m.edi = m.esi ∨ w * n ≤ (m.edi - m.esi).toNat) :
    ((movs w)^[n] m).mem = moved m.mem m.edi m.esi (w * n) := by
  induction n generalizing m with
  | zero =>
      funext x
      exact (moved_of_le (Nat.zero_le _)).symm
  | succ n ih =>
      have hmul : w * (n + 1) = w + w * n := by rw [Nat.mul_succ, Nat.add_comm]
      rw [hmul] at hn hsafe ⊢
      have hedi : (movs w m).edi = m.edi + BitVec.ofNat 32 w := by simp [movs, Machine.along, hdf]
      have hesi : (movs w m).esi = m.esi + BitVec.ofNat 32 w := by simp [movs, Machine.along, hdf]
      have hsafe' : (movs w m).edi = (movs w m).esi ∨
          w * n ≤ ((movs w m).edi - (movs w m).esi).toNat := by
        rw [hedi, hesi]
        refine hsafe.imp (fun heq => by rw [heq]) (fun hfar => ?_)
        have hdist : m.edi + BitVec.ofNat 32 w - (m.esi + BitVec.ofNat 32 w)
            = m.edi - m.esi := by
          apply BitVec.eq_of_toNat_eq
          simp only [BitVec.toNat_sub, BitVec.toNat_add, BitVec.toNat_ofNat]
          omega
        rw [hdist]
        omega
      have hrest := ih (m := movs w m) hdf (by omega) hsafe'
      rw [Function.iterate_succ_apply, hrest, hedi, hesi]
      exact moved_append hw hn hsafe

/-- Moves downwards, away from what is still to be read. -/
theorem iterate_movs_down (hdf : m.df = true) (hpos : 0 < w) (hn : w * n ≤ 2 ^ 32)
    (hedi : m.edi + BitVec.ofNat 32 w = dst + BitVec.ofNat 32 (w * n))
    (hesi : m.esi + BitVec.ofNat 32 w = src + BitVec.ofNat 32 (w * n))
    (hsafe : dst = src ∨ w * n ≤ (src - dst).toNat) :
    ((movs w)^[n] m).mem = moved m.mem dst src (w * n) := by
  induction n generalizing m with
  | zero =>
      funext x
      exact (moved_of_le (Nat.zero_le _)).symm
  | succ n ih =>
      have hmul : w * (n + 1) = w * n + w := Nat.mul_succ _ _
      rw [hmul] at hn hsafe hedi hesi ⊢
      rw [BitVec.ofNat_add, ← BitVec.add_assoc] at hedi hesi
      have htop : m.edi = dst + BitVec.ofNat 32 (w * n) := (BitVec.add_left_inj _).mp hedi
      have htop' : m.esi = src + BitVec.ofNat 32 (w * n) := (BitVec.add_left_inj _).mp hesi
      have hmem : (movs w m).mem = moved m.mem (dst + BitVec.ofNat 32 (w * n))
          (src + BitVec.ofNat 32 (w * n)) w := by
        rw [← htop, ← htop']
        rfl
      have hnext : (movs w m).edi + BitVec.ofNat 32 w = dst + BitVec.ofNat 32 (w * n) := by
        simp only [movs, Machine.along, hdf, if_true, BitVec.sub_add_cancel, htop]
      have hnext' : (movs w m).esi + BitVec.ofNat 32 w = src + BitVec.ofNat 32 (w * n) := by
        simp only [movs, Machine.along, hdf, if_true, BitVec.sub_add_cancel, htop']
      have hrest := ih (m := movs w m) hdf (by omega) hnext hnext'
        (hsafe.imp_right (fun hfar => by omega))
      rw [Function.iterate_succ_apply, hrest, hmem]
      exact moved_prepend hn (by omega) hsafe

/-- Stores upwards of a register whose bytes are all the same. -/
theorem iterate_stos_up (hdf : m.df = false) (hw : w < 2 ^ 32) (hn : w * n ≤ 2 ^ 32)
    (hb : ∀ i, i < w → byteAt m.eax i = b) :
    ((stos w)^[n] m).mem = filled m.mem m.edi (w * n) b := by
  induction n generalizing m with
  | zero =>
      funext x
      exact (filled_of_le (Nat.zero_le _)).symm
  | succ n ih =>
      have hmul : w * (n + 1) = w + w * n := by rw [Nat.mul_succ, Nat.add_comm]
      rw [hmul] at hn ⊢
      have hedi : (stos w m).edi = m.edi + BitVec.ofNat 32 w := by simp [stos, Machine.along, hdf]
      have hmem : (stos w m).mem = filled m.mem m.edi w b := by
        funext x
        by_cases hx : (x - m.edi).toNat < w
        · rw [filled_of_lt hx]
          exact (if_pos hx).trans (hb _ hx)
        · rw [filled_of_le (Nat.not_lt.mp hx)]
          exact if_neg hx
      have hrest := ih (m := stos w m) hdf (by omega) hb
      rw [Function.iterate_succ_apply, hrest, hedi, hmem]
      exact filled_append hw hn

theorem rep_movs_up (hdf : m.df = false) (hw : w < 2 ^ 32) (hlen : w * m.ecx.toNat = n)
    (hn : n ≤ 2 ^ 32) (hsafe : m.edi = m.esi ∨ n ≤ (m.edi - m.esi).toNat) :
    (rep (movs w) m).mem = moved m.mem m.edi m.esi n := by
  subst hlen
  exact iterate_movs_up hdf hw hn hsafe

theorem rep_movs_down (hdf : m.df = true) (hpos : 0 < w) (hlen : w * m.ecx.toNat = n)
    (hn : n ≤ 2 ^ 32) (hedi : m.edi + BitVec.ofNat 32 w = dst + BitVec.ofNat 32 n)
    (hesi : m.esi + BitVec.ofNat 32 w = src + BitVec.ofNat 32 n)
    (hsafe : dst = src ∨ n ≤ (src - dst).toNat) :
    (rep (movs w) m).mem = moved m.mem dst src n := by
  subst hlen
  exact iterate_movs_down hdf hpos hn hedi hesi hsafe

theorem rep_stos_up (hdf : m.df = false) (hw : w < 2 ^ 32) (hlen : w * m.ecx.toNat = n)
    (hn : n ≤ 2 ^ 32) (hb : ∀ i, i < w → byteAt m.eax i = b) :
    (rep (stos w) m).mem = filled m.mem m.edi n b := by
  subst hlen
  exact iterate_stos_up hdf hw hn hb

end StringInsns

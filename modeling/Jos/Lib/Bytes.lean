import Mathlib.Algebra.Group.Nat.Defs
import Mathlib.Data.List.GetD
import Mathlib.Logic.Function.Basic

/-!
# Words in a memory of bytes

A memory is a function from addresses to bytes.  A 32-bit word is kept in four
bytes, the least significant first.

* `word_setWord_self`, `word_setWord_of_apart` and `word_congr` are the rules for
  reading a word after a write, `word_setWords` is that for several words,
  `bytesAt_setBytes_self` and `bytesAt_setBytes_of_apart` those for reading a string of bytes.
-/

namespace Bytes

/-- The contents of a memory. -/
abbrev Memory : Type := Nat → BitVec 8

/-- Byte `i` of a word. -/
def byteOf (w : BitVec 32) (i : Nat) : BitVec 8 := BitVec.ofNat 8 (w.toNat / 256 ^ i)

/-- The word at address `a`. -/
def word (v : Memory) (a : Nat) : BitVec 32 :=
  BitVec.ofNat 32 ((v a).toNat + 256 * (v (a + 1)).toNat + 65536 * (v (a + 2)).toNat +
    16777216 * (v (a + 3)).toNat)

/-- Store a word at address `a`. -/
def setWord (v : Memory) (a : Nat) (w : BitVec 32) : Memory := fun x =>
  if a ≤ x ∧ x < a + 4 then byteOf w (x - a) else v x

/-- Store words from address `a` on. -/
def setWords (v : Memory) (a : Nat) : List (BitVec 32) → Memory
  | [] => v
  | w :: ws => setWords (setWord v a w) (a + 4) ws

/-- Copy `n` bytes from address `src` to address `dst`. -/
def move (v : Memory) (dst src n : Nat) : Memory := fun x =>
  if dst ≤ x ∧ x < dst + n then v (src + (x - dst)) else v x

/-- The `n` bytes from address `a` on. -/
def bytesAt (v : Memory) (a n : Nat) : List (BitVec 8) :=
  (List.range n).map (fun i => v (a + i))

/-- Store bytes from address `a` on. -/
def setBytes (v : Memory) (a : Nat) (bs : List (BitVec 8)) : Memory := fun x =>
  if a ≤ x ∧ x < a + bs.length then bs.getD (x - a) 0 else v x

variable {v v' : Memory} {a a' x dst src n : Nat} {w : BitVec 32} {bs : List (BitVec 8)}

/-- A word is known by its bytes. -/
theorem word_congr (h : ∀ x, a ≤ x → x < a + 4 → v x = v' x) : word v a = word v' a := by
  unfold word
  rw [h a (Nat.le_refl a) (by omega), h (a + 1) (by omega) (by omega),
    h (a + 2) (by omega) (by omega), h (a + 3) (by omega) (by omega)]

/-- Four null bytes. -/
theorem word_zero (h : ∀ x, a ≤ x → x < a + 4 → v x = 0) : word v a = 0 :=
  (word_congr h : word v a = word (fun _ => 0) a)

/-- A word that was copied. -/
theorem word_shift (h : ∀ k, k < 4 → v' (a' + k) = v (a + k)) : word v' a' = word v a := by
  have h0 : v' a' = v a := h 0 (by decide)
  unfold word
  rw [h0, h 1 (by decide), h 2 (by decide), h 3 (by decide)]

theorem setWord_of_apart (h : x < a ∨ a + 4 ≤ x) : setWord v a w x = v x :=
  if_neg (by omega)

theorem setWord_byte {i : Nat} (h : i < 4) : setWord v a w (a + i) = byteOf w i := by
  unfold setWord
  rw [if_pos (by omega), Nat.add_sub_cancel_left]

@[simp] theorem word_setWord_self : word (setWord v a w) a = w := by
  have h0 : setWord v a w a = byteOf w 0 := setWord_byte (i := 0) (by decide)
  unfold word
  rw [h0, setWord_byte (by decide), setWord_byte (by decide), setWord_byte (by decide)]
  unfold byteOf
  have hlt := w.isLt
  apply BitVec.eq_of_toNat_eq
  simp only [BitVec.toNat_ofNat]
  omega

theorem word_setWord_of_apart (h : a' + 4 ≤ a ∨ a + 4 ≤ a') :
    word (setWord v a w) a' = word v a' :=
  word_congr (fun _ hle hlt => setWord_of_apart (by omega))

theorem setWords_of_apart {ws : List (BitVec 32)} (h : x < a ∨ a + 4 * ws.length ≤ x) :
    setWords v a ws x = v x := by
  induction ws generalizing v a with
  | nil => rfl
  | cons w ws ih =>
      rw [List.length_cons] at h
      rw [setWords, ih (by omega)]
      exact setWord_of_apart (by omega)

theorem word_setWords {ws : List (BitVec 32)} {i : Nat} (hi : i < ws.length) :
    word (setWords v a ws) (a + 4 * i) = ws.getD i 0 := by
  induction ws generalizing v a i with
  | nil => exact absurd hi (Nat.not_lt_zero i)
  | cons w ws ih =>
      rw [setWords]
      cases i with
      | zero =>
          have hfirst : word (setWords (setWord v a w) (a + 4) ws) a = word (setWord v a w) a :=
            word_congr (fun x _ hlt => setWords_of_apart (by omega))
          exact hfirst.trans word_setWord_self
      | succ i =>
          have haddr : a + 4 * (i + 1) = a + 4 + 4 * i := by omega
          rw [haddr, ih (by rw [List.length_cons] at hi; omega)]
          rfl

theorem move_of_apart (h : x < dst ∨ dst + n ≤ x) : move v dst src n x = v x :=
  if_neg (by omega)

theorem update_of_apart {b : BitVec 8} (h : x ≠ a) : Function.update v a b x = v x :=
  Function.update_of_ne h _ _

@[simp] theorem bytesAt_length : (bytesAt v a n).length = n := by
  unfold bytesAt
  simp

theorem bytesAt_succ : bytesAt v a (n + 1) = bytesAt v a n ++ [v (a + n)] := by
  unfold bytesAt
  rw [List.range_succ, List.map_append]
  rfl

theorem bytesAt_take {m : Nat} (h : m ≤ n) : (bytesAt v a n).take m = bytesAt v a m := by
  unfold bytesAt
  rw [← List.map_take, List.take_range, Nat.min_eq_left h]

theorem bytesAt_cons : bytesAt v a (n + 1) = v a :: bytesAt v (a + 1) n := by
  unfold bytesAt
  rw [List.range_succ_eq_map, List.map_cons, List.map_map]
  refine congrArg₂ List.cons rfl (List.map_congr_left (fun i _ => ?_))
  exact congrArg v (by simp only [Nat.succ_eq_add_one]; omega)

/-- A string of bytes that was copied. -/
theorem bytesAt_shift (h : ∀ k, k < n → v' (a' + k) = v (a + k)) :
    bytesAt v' a' n = bytesAt v a n := by
  unfold bytesAt
  exact List.map_congr_left (fun i hi => h i (List.mem_range.mp hi))

theorem bytesAt_getElem {i : Nat} (h : bytesAt v a bs.length = bs) (hi : i < bs.length) :
    v (a + i) = bs[i] := by
  have hget : (bytesAt v a bs.length)[i]? = bs[i]? := by rw [h]
  unfold bytesAt at hget
  simpa [hi] using hget

/-- A string of bytes is known by its bytes. -/
theorem bytesAt_congr (h : ∀ x, a ≤ x → x < a + n → v x = v' x) :
    bytesAt v a n = bytesAt v' a n := by
  unfold bytesAt
  refine List.map_congr_left (fun i hi => h (a + i) (Nat.le_add_right a i) ?_)
  have hlt := List.mem_range.mp hi
  omega

@[simp] theorem bytesAt_setBytes_self : bytesAt (setBytes v a bs) a bs.length = bs := by
  refine List.ext_getElem bytesAt_length (fun i hi hi' => ?_)
  unfold bytesAt setBytes
  simp [hi']

theorem setBytes_of_apart (h : x < a ∨ a + bs.length ≤ x) : setBytes v a bs x = v x :=
  if_neg (by omega)

theorem bytesAt_setBytes_of_apart (h : a' + n ≤ a ∨ a + bs.length ≤ a') :
    bytesAt (setBytes v a bs) a' n = bytesAt v a' n := by
  refine bytesAt_congr (fun x hle hlt => setBytes_of_apart ?_)
  omega

@[simp] theorem setBytes_nil : setBytes v a [] = v := by
  funext x
  exact setBytes_of_apart (by simp; omega)

/-- The first byte of a string is stored before the rest. -/
theorem setBytes_cons {b : BitVec 8} :
    setBytes (Function.update v a b) (a + 1) bs = setBytes v a (b :: bs) := by
  funext x
  unfold setBytes
  by_cases hx : x = a
  · subst hx
    rw [if_neg (by omega), Function.update_self, if_pos (by simp), Nat.sub_self]
    rfl
  · by_cases hin : a ≤ x ∧ x < a + (b :: bs).length
    · rw [List.length_cons] at hin
      rw [if_pos (by omega), if_pos (by rw [List.length_cons]; exact hin),
        show x - a = (x - (a + 1)) + 1 by omega]
      rfl
    · rw [List.length_cons] at hin
      rw [if_neg (by omega), if_neg (by rw [List.length_cons]; exact hin),
        Function.update_of_ne hx]

/-- One more byte of a string. -/
theorem setBytes_push {b : BitVec 8} :
    Function.update (setBytes v a bs) (a + bs.length) b = setBytes v a (bs ++ [b]) := by
  funext x
  unfold setBytes
  by_cases hx : x = a + bs.length
  · subst hx
    simp
  · rw [Function.update_of_ne hx]
    by_cases hin : a ≤ x ∧ x < a + bs.length
    · rw [if_pos hin, if_pos (by simp; omega), List.getD_append _ _ _ _ (by omega)]
    · rw [if_neg hin, if_neg (by simp; omega)]

end Bytes

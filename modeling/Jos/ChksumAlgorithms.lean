import Jos.InetChksum

/-!
# `lwip/core/ipv4/inet_chksum.c`: the three algorithms

Versions 2 and 3 of `lwip_standard_chksum` read words of two and of four octets at aligned
addresses; at an odd address the bytes of the sum are swapped in the end.  Version 3 puts a
carry back after each addition.

* `chksum_algorithms_agree`: the three give the same at every address.
-/

namespace Jos

namespace Lwip

open OnesSum

/-- A `u16_t` in memory. -/
def halfAt (a b : U8) : U16 := b.setWidth 16 <<< 8 ||| a.setWidth 16

/-- A `u32_t` in memory. -/
def wordAt (a b c d : U8) : U32 := (halfAt c d).setWidth 32 <<< 16 ||| (halfAt a b).setWidth 32

/-- The octet before an aligned address becomes the second one of `t`. -/
def headOctet (addr : Nat) : List U8 → U16 × List U8
  | a :: l => if addr % 2 = 1 then (halfAt 0#8 a, l) else (0#16, a :: l)
  | [] => (0#16, [])

/-- The octet that is left over becomes the first one of `t`. -/
def tailOctet (t : U16) : List U8 → U16
  | a :: _ => (t &&& 0xff00#16) ||| a.setWidth 16
  | [] => t

/-- The loop over words of two octets. -/
def sumHalves (sum : U32) : List U8 → U32 × List U8
  | a :: b :: l => sumHalves (sum + (halfAt a b).setWidth 32) l
  | l => (sum, l)

/-- The sum without its carries, with the bytes in order. -/
def foldSwap (addr : Nat) (sum : U32) : U16 :=
  let sum := foldU32 (foldU32 sum)
  (if addr % 2 = 1 then swapBytes sum else sum).setWidth 16

/-- `lwip_standard_chksum`, version 2. -/
def lwipStandardChksum2 (addr : Nat) (data : List U8) : U16 :=
  let (t, l) := headOctet addr data
  let (sum, l) := sumHalves 0#32 l
  foldSwap addr (sum + (tailOctet t l).setWidth 32)

/-- An addition that puts the carry back. -/
def addCarry (sum w : U32) : U32 :=
  let tmp := sum + w
  if tmp < sum then tmp + 1#32 else tmp

/-- The loop over eight octets, "ping" and "pong". -/
def sumWords (sum : U32) : List U8 → U32 × List U8
  | a :: b :: c :: d :: a' :: b' :: c' :: d' :: l =>
      sumWords (addCarry (addCarry sum (wordAt a b c d)) (wordAt a' b' c' d')) l
  | l => (sum, l)

/-- Two octets before an address that is a multiple of four. -/
def headHalf (addr : Nat) : List U8 → U32 × List U8
  | a :: b :: l => if addr % 4 ≠ 0 then ((halfAt a b).setWidth 32, l) else (0#32, a :: b :: l)
  | l => (0#32, l)

/-- `lwip_standard_chksum`, version 3. -/
def lwipStandardChksum3 (addr : Nat) (data : List U8) : U16 :=
  let (t, l) := headOctet addr data
  let (sum, l) := headHalf (addr + addr % 2) l
  let (sum, l) := sumWords sum l
  let (sum, l) := sumHalves (foldU32 sum) l
  foldSwap addr (sum + (tailOctet t l).setWidth 32)

section Sums

variable {a b c d : U8} {t : U16} {s w : U32} {n m addr : Nat} {l r data : List U8}

/-- A word stands for a sum of octets. -/
structure Represents (s : U32) (n : Nat) : Prop where
  modEq : s.toNat ≡ n [MOD 65535]
  zero : s.toNat = 0 ↔ n = 0

theorem represents_zero : Represents 0#32 0 := ⟨Nat.ModEq.refl _, Iff.rfl⟩

theorem halfAt_toNat : (halfAt a b).toNat = a.toNat + 256 * b.toNat := by
  have ha := a.isLt
  have hoctets := octets_toNat (a := b) (b := a)
  rw [BitVec.toNat_setWidth] at hoctets
  have hlt := (halfAt a b).isLt
  unfold halfAt at hlt ⊢
  omega

theorem wordAt_toNat :
    (wordAt a b c d).toNat = (a.toNat + 256 * b.toNat) + 65536 * (c.toNat + 256 * d.toNat) := by
  have hab := (halfAt a b).isLt
  have hcd := (halfAt c d).isLt
  have hor : (halfAt c d).toNat <<< 16 ||| (halfAt a b).toNat =
      (halfAt c d).toNat <<< 16 + (halfAt a b).toNat :=
    (Nat.shiftLeft_add_eq_or_of_lt hab _).symm
  unfold wordAt
  simp only [BitVec.toNat_setWidth, BitVec.toNat_or, BitVec.toNat_shiftLeft]
  rw [Nat.mod_eq_of_lt (a := (halfAt c d).toNat) (by omega),
    Nat.mod_eq_of_lt (a := (halfAt a b).toNat) (by omega),
    Nat.mod_eq_of_lt (a := (halfAt c d).toNat <<< 16) (by rw [Nat.shiftLeft_eq]; omega), hor,
    Nat.shiftLeft_eq, halfAt_toNat, halfAt_toNat]
  omega

@[simp] theorem octetSum_nil : octetSum [] = 0 := rfl

@[simp] theorem octetSum_singleton : octetSum [a] = a.toNat := rfl

@[simp] theorem octetSum_cons_cons :
    octetSum (a :: b :: l) = a.toNat + 256 * b.toNat + octetSum l := rfl

theorem sumHalves_length : ∀ (s : U32) (l : List U8), (sumHalves s l).2.length < 2
  | _, [] | _, [_] => by simp [sumHalves]
  | s, a :: b :: l => sumHalves_length (s + (halfAt a b).setWidth 32) l

theorem sumHalves_le : ∀ {s : U32} {l : List U8}, s.toNat + 65535 * (l.length / 2) < 2 ^ 32 →
    (sumHalves s l).1.toNat ≤ s.toNat + 65535 * (l.length / 2)
  | _, [], _ | _, [_], _ => by simp [sumHalves]
  | s, a :: b :: l, hs => by
      have hhalf := (halfAt a b).isLt
      simp only [List.length_cons] at hs ⊢
      have hsum : (s + (halfAt a b).setWidth 32).toNat = s.toNat + (halfAt a b).toNat := by
        rw [BitVec.toNat_add, BitVec.toNat_setWidth]
        omega
      have hle := sumHalves_le (s := s + (halfAt a b).setWidth 32) (l := l) (by rw [hsum]; omega)
      simp only [sumHalves]
      omega

/-- Without a carry the sum stands for the sum. -/
theorem Represents.add (h : Represents s n) (hw : Represents w m)
    (hlt : s.toNat + w.toNat < 2 ^ 32) : Represents (s + w) (n + m) := by
  have hsum : (s + w).toNat = s.toNat + w.toNat := by
    rw [BitVec.toNat_add, Nat.mod_eq_of_lt hlt]
  have hzero := h.zero
  have hzero' := hw.zero
  constructor
  · rw [hsum]
    exact h.modEq.add hw.modEq
  · omega

theorem halfAt_represents : Represents ((halfAt a b).setWidth 32) (a.toNat + 256 * b.toNat) := by
  have hlt := (halfAt a b).isLt
  have hhalf : ((halfAt a b).setWidth 32).toNat = a.toNat + 256 * b.toNat := by
    rw [BitVec.toNat_setWidth, ← halfAt_toNat]
    omega
  constructor
  · rw [hhalf]
  · rw [hhalf]

theorem sumHalves_represents : ∀ {s : U32} {l : List U8} {n : Nat}, Represents s n →
    s.toNat + 65535 * (l.length / 2) < 2 ^ 32 →
    ∃ m, Represents (sumHalves s l).1 m ∧ m + octetSum (sumHalves s l).2 = n + octetSum l
  | _, [], n, h, _ | _, [_], n, h, _ => ⟨n, h, rfl⟩
  | s, a :: b :: l, n, h, hs => by
      have hlt := (halfAt a b).isLt
      have hhalf : ((halfAt a b).setWidth 32).toNat = (halfAt a b).toNat := by
        rw [BitVec.toNat_setWidth]
        omega
      simp only [List.length_cons] at hs
      have hadd := h.add (halfAt_represents (a := a) (b := b)) (by omega)
      obtain ⟨m, hm, hsum⟩ := sumHalves_represents (l := l) hadd (by rw [BitVec.toNat_add]; omega)
      refine ⟨m, hm, ?_⟩
      simp only [sumHalves]
      rw [hsum, octetSum_cons_cons]
      omega

/-- The carry of 32 bits is one also modulo `0xffff`. -/
theorem Represents.addCarry (h : Represents s n) (hw : Represents w m) :
    Represents (addCarry s w) (n + m) := by
  have hs := s.isLt
  have hw' := w.isLt
  have hmod : s.toNat + w.toNat ≡ n + m [MOD 65535] := h.modEq.add hw.modEq
  have hzero := h.zero
  have hzero' := hw.zero
  unfold Lwip.addCarry
  simp only [BitVec.lt_def, BitVec.toNat_add]
  split
  · next hcarry =>
      have hsum : (s + w + 1#32).toNat + 65535 * 65537 = s.toNat + w.toNat := by
        rw [BitVec.toNat_add, BitVec.toNat_add]
        simp
        omega
      constructor
      · simp only [Nat.ModEq] at hmod ⊢
        omega
      · omega
  · next hcarry =>
      have hsum : (s + w).toNat = s.toNat + w.toNat := by
        rw [BitVec.toNat_add]
        omega
      constructor
      · rw [hsum]
        exact hmod
      · omega

theorem Represents.foldU32 (h : Represents s n) : Represents (foldU32 s) n := by
  constructor
  · rw [foldU32_toNat]
    exact (fold_modEq (by decide)).trans h.modEq
  · rw [foldU32_toNat, fold_eq_zero]
    exact h.zero

theorem wordAt_represents : Represents (wordAt a b c d) (octetSum [a, b, c, d]) := by
  constructor
  · rw [wordAt_toNat]
    simp [Nat.ModEq]
    omega
  · rw [wordAt_toNat]
    simp

/-- The loop over words keeps what the sum stands for, with the octets that remain. -/
theorem sumWords_represents (h : Represents s n) :
    ∃ m, Represents (sumWords s l).1 m ∧ m + octetSum (sumWords s l).2 = n + octetSum l ∧
      (sumWords s l).2.length < 8 := by
  fun_induction sumWords s l generalizing n with
  | case1 s a b c d a' b' c' d' l ih =>
      obtain ⟨m, hm, hsum, hlen⟩ := ih ((h.addCarry wordAt_represents).addCarry wordAt_represents)
      refine ⟨m, hm, ?_, hlen⟩
      simp only [octetSum_cons_cons, octetSum_nil] at hsum ⊢
      omega
  | case2 s l hl =>
      refine ⟨n, h, rfl, ?_⟩
      match l with
      | [] | [_] | [_, _] | [_, _, _] | [_, _, _, _] | [_, _, _, _, _] | [_, _, _, _, _, _]
      | [_, _, _, _, _, _, _] => simp
      | a :: b :: c :: d :: a' :: b' :: c' :: d' :: l =>
          exact absurd rfl (hl a b c d a' b' c' d' l)

theorem high_mask : ∀ i : Fin 16, (0xff00#16)[i.val] = decide (8 ≤ i.val) := by decide

theorem tailOctet_toNat (hr : r.length < 2) :
    (tailOctet (halfAt 0#8 a) r).toNat = 256 * a.toNat + octetSum r := by
  match r, hr with
  | [], _ => simp [tailOctet, halfAt_toNat]
  | [x], _ =>
      have htail : tailOctet (halfAt 0#8 a) [x] = halfAt x a := by
        ext i hi
        have hmask : (0xff00#16)[i] = decide (8 ≤ i) := high_mask ⟨i, hi⟩
        by_cases hlow : i < 8
        · simp [tailOctet, halfAt, hlow]
        · simp [tailOctet, halfAt, hlow, hmask, Nat.le_of_not_lt hlow]
      rw [htail, halfAt_toNat, octetSum_singleton, Nat.add_comm]

/-- The head is one octet in the second place of a word; without it the sum has its bytes
swapped. -/
theorem headOctet_sum (hhead : headOctet addr data = (t, l)) :
    ∃ a : U8, t = halfAt 0#8 a ∧
      256 ^ (addr % 2) * (256 * a.toNat + octetSum l) ≡ octetSum data [MOD 65535] ∧
      (256 * a.toNat + octetSum l = 0 ↔ octetSum data = 0) := by
  have hzero : (0#16 : U16) = halfAt 0#8 0#8 := rfl
  match data with
  | [] =>
      obtain ⟨rfl, rfl⟩ := Prod.mk.inj hhead
      exact ⟨0#8, hzero, by simp [Nat.ModEq], by simp⟩
  | a :: l' =>
      by_cases hodd : addr % 2 = 1
      · simp only [headOctet, hodd, if_true, Prod.mk.injEq] at hhead
        obtain ⟨rfl, rfl⟩ := hhead
        have hcons : octetSum (a :: l') ≡ a.toNat + 256 * octetSum l' [MOD 65535] := by
          unfold octetSum
          simpa using pairs_cons (b := 256) (x := a.toNat) (l := l'.map BitVec.toNat) (by decide)
        refine ⟨a, rfl, ?_, ?_⟩
        · rw [hodd]
          refine Nat.ModEq.trans ?_ hcons.symm
          simp only [Nat.ModEq]
          omega
        · simp only [Nat.add_eq_zero_iff, octetSum_eq_zero, List.forall_mem_cons,
            ← BitVec.toNat_inj (x := a)]
          simp
      · simp only [headOctet, hodd, if_false, Prod.mk.injEq] at hhead
        obtain ⟨rfl, rfl⟩ := hhead
        have heven : addr % 2 = 0 := by omega
        exact ⟨0#8, hzero, by simp [heven, Nat.ModEq], by simp⟩

theorem headOctet_length : (headOctet addr data).2.length ≤ data.length := by
  unfold headOctet
  split
  · split
    · simp
    · simp
  · simp

theorem foldSwap_toNat (hhead : headOctet addr data = (t, l)) (hs : Represents s n)
    (hlt : s.toNat + 65535 < 2 ^ 32) (hr : r.length < 2) (hsum : n + octetSum r = octetSum l) :
    (foldSwap addr (s + (tailOctet t r).setWidth 32)).toNat = rep 65535 (octetSum data) := by
  obtain ⟨a, rfl, hmod, hzero⟩ := headOctet_sum hhead
  have htail := tailOctet_toNat (a := a) hr
  have hlt' := (tailOctet (halfAt 0#8 a) r).isLt
  have hnat : (s + (tailOctet (halfAt 0#8 a) r).setWidth 32).toNat =
      s.toNat + (256 * a.toNat + octetSum r) := by
    rw [BitVec.toNat_add, BitVec.toNat_setWidth]
    omega
  have hrep : rep 65535 (s.toNat + (256 * a.toNat + octetSum r)) =
      rep 65535 (256 * a.toNat + octetSum l) := by
    refine rep_congr (by decide) ?_ ?_
    · calc s.toNat + (256 * a.toNat + octetSum r)
          ≡ n + (256 * a.toNat + octetSum r) [MOD 65535] := hs.modEq.add_right _
        _ = 256 * a.toNat + octetSum l := by omega
    · have hszero := hs.zero
      omega
  have hfold : (foldU32 (foldU32 (s + (tailOctet (halfAt 0#8 a) r).setWidth 32))).toNat =
      rep 65535 (256 * a.toNat + octetSum l) := by
    rw [foldU32_toNat, foldU32_toNat, fold_twice (BitVec.isLt _), hnat, hrep]
  have hle : rep 65535 (256 * a.toNat + octetSum l) ≤ 65535 := rep_le (by decide)
  unfold foldSwap
  simp only
  split
  · next hodd =>
      rw [BitVec.toNat_setWidth, swapBytes_toNat (hfold ▸ hle), hfold, rep_mul (by decide)]
      have hswap : rep 65535 (256 * (256 * a.toNat + octetSum l)) = rep 65535 (octetSum data) := by
        rw [hodd, Nat.pow_one] at hmod
        refine rep_congr (by decide) hmod ?_
        rw [← hzero]
        omega
      rw [hswap]
      exact Nat.mod_eq_of_lt (Nat.lt_of_le_of_lt (rep_le (by decide)) (by decide))
  · next heven =>
      have heven' : addr % 2 = 0 := by omega
      rw [heven', Nat.pow_zero, Nat.one_mul] at hmod
      rw [BitVec.toNat_setWidth, hfold, Nat.mod_eq_of_lt (by omega)]
      exact rep_congr (by decide) hmod hzero

theorem lwipStandardChksum2_toNat (hlen : data.length ≤ 0x20000) :
    (lwipStandardChksum2 addr data).toNat = rep 65535 (octetSum data) := by
  have hl : (headOctet addr data).2.length ≤ data.length := headOctet_length
  rcases hhead : headOctet addr data with ⟨t, l⟩
  simp only [hhead] at hl
  have hfit : (0#32 : U32).toNat + 65535 * (l.length / 2) < 2 ^ 32 := by
    simp
    omega
  have hle := sumHalves_le hfit
  have hr := sumHalves_length 0#32 l
  obtain ⟨m, hm, hsum⟩ := sumHalves_represents represents_zero hfit
  rcases hhalves : sumHalves 0#32 l with ⟨s, r⟩
  simp only [hhalves] at hle hr hm hsum
  simp only [lwipStandardChksum2, hhead, hhalves]
  refine foldSwap_toNat hhead hm ?_ hr (by omega)
  rw [BitVec.toNat_ofNat] at hle
  omega

theorem headHalf_represents (addr : Nat) (l : List U8) :
    ∃ m, Represents (headHalf addr l).1 m ∧ m + octetSum (headHalf addr l).2 = octetSum l := by
  unfold headHalf
  split
  · split
    · exact ⟨_, halfAt_represents, rfl⟩
    · exact ⟨0, represents_zero, Nat.zero_add _⟩
  · exact ⟨0, represents_zero, Nat.zero_add _⟩

theorem lwipStandardChksum3_toNat :
    (lwipStandardChksum3 addr data).toNat = rep 65535 (octetSum data) := by
  rcases hhead : headOctet addr data with ⟨t, l⟩
  obtain ⟨k, hk, hhalf⟩ := headHalf_represents (addr + addr % 2) l
  rcases hhalf' : headHalf (addr + addr % 2) l with ⟨s, l'⟩
  simp only [hhalf'] at hk hhalf
  obtain ⟨n, hn, hwords, hlen⟩ := sumWords_represents (l := l') hk
  rcases hwords' : sumWords s l' with ⟨s', r⟩
  simp only [hwords'] at hn hwords hlen
  -- the fold makes room for the three words that may be left
  have hfold : (foldU32 s').toNat ≤ 131070 := by
    have hlt := s'.isLt
    rw [foldU32_toNat, fold]
    omega
  have hfit : (foldU32 s').toNat + 65535 * (r.length / 2) < 2 ^ 32 := by omega
  have hle := sumHalves_le hfit
  have hr := sumHalves_length (foldU32 s') r
  obtain ⟨m, hm, hsum⟩ := sumHalves_represents hn.foldU32 hfit
  rcases hhalves : sumHalves (foldU32 s') r with ⟨s'', r'⟩
  simp only [hhalves] at hle hr hm hsum
  simp only [lwipStandardChksum3, hhead, hhalf', hwords', hhalves]
  refine foldSwap_toNat hhead hm ?_ hr ?_
  · omega
  · omega

/-- The algorithms agree at any two addresses. -/
theorem chksum_algorithms_agree {addr' : Nat} (hlen : data.length ≤ 0x20000) :
    lwipStandardChksum2 addr data = lwipStandardChksum3 addr' data ∧
      (data.length < 65536 → lwipStandardChksum data = lwipStandardChksum3 addr' data) := by
  constructor
  · refine BitVec.eq_of_toNat_eq ?_
    rw [lwipStandardChksum2_toNat hlen, lwipStandardChksum3_toNat]
  · intro hshort
    refine BitVec.eq_of_toNat_eq ?_
    rw [lwipStandardChksum_rep hshort, lwipStandardChksum3_toNat]

/-- Eleven octets at an odd address and at an aligned one. -/
theorem chksum_algorithms_agree_odd :
    lwipStandardChksum2 3 [1#8, 2#8, 3#8, 0xff#8, 0xfe#8, 6#8, 0xfd#8, 8#8, 9#8, 10#8, 11#8] =
      lwipStandardChksum3 8 [1#8, 2#8, 3#8, 0xff#8, 0xfe#8, 6#8, 0xfd#8, 8#8, 9#8, 10#8, 11#8] :=
  (chksum_algorithms_agree (by decide)).1

end Sums

end Lwip

end Jos

import Jos.Lib.OnesSum
import Jos.Mmu

/-!
# `lwip/core/ipv4/inet_chksum.c`: Internet checksums

`lwip_standard_chksum` sums a string of octets, and `inet_chksum_pbuf` and
`inet_chksum_pseudo` those of a chain of buffers of any lengths: after an odd one the bytes
of the sum are swapped.  The functions are for a processor that is little endian.

* `sumPbufs_rep`: the sum of a chain is that of its octets, wherever the chain is cut.
* `pseudo_chksum_verifies`: a receiver accepts what the sender has put a checksum into.
* `pseudo_chksum_detects`: and rejects it if one word has changed, but for the two zeros.
* `echo_reply_accepted`: the checksum that `icmp_input` adjusts is that of the reply, unless
  this is all zero.
-/

namespace Jos

namespace Lwip

open OnesSum

/-- `htons`. -/
def htons (n : U16) : U16 := ((n &&& 0xff#16) <<< 8) ||| ((n &&& 0xff00#16) >>> 8)

/-- `FOLD_U32T`. -/
def foldU32 (u : U32) : U32 := (u >>> 16) + (u &&& 0xffff#32)

/-- `SWAP_BYTES_IN_WORD`. -/
def swapBytes (w : U32) : U32 := ((w &&& 0xff#32) <<< 8) ||| ((w &&& 0xff00#32) >>> 8)

/-- The loop of `lwip_standard_chksum`, and the octet that remains. -/
def sumOctets (acc : U32) : List U8 → U32
  | [] => acc
  | [a] => acc + (a.setWidth 16 <<< 8).setWidth 32
  | a :: b :: l => sumOctets (acc + (a.setWidth 16 <<< 8 ||| b.setWidth 16).setWidth 32) l

/-- `lwip_standard_chksum`. -/
def lwipStandardChksum (data : List U8) : U16 :=
  let acc := foldU32 (sumOctets 0#32 data)
  let acc := if acc &&& 0xffff0000#32 ≠ 0#32 then foldU32 acc else acc
  htons (acc.setWidth 16)

/-- A turn of the loop over a chain, with `acc` and `swapped`. -/
def addPbuf (st : U32 × Bool) (q : List U8) : U32 × Bool :=
  let acc := foldU32 (st.1 + (lwipStandardChksum q).setWidth 32)
  if q.length % 2 ≠ 0 then (swapBytes acc, !st.2) else (acc, st.2)

/-- The loop over a chain. -/
def sumPbufs (p : List (List U8)) : U32 :=
  let st := p.foldl addPbuf (0#32, false)
  if st.2 then swapBytes st.1 else st.1

/-- `inet_chksum`. -/
def inetChksum (data : List U8) : U16 := ~~~lwipStandardChksum data

/-- `inet_chksum_pbuf`. -/
def inetChksumPbuf (p : List (List U8)) : U16 := ~~~(sumPbufs p).setWidth 16

/-- `inet_chksum_pseudo`. -/
def inetChksumPseudo (p : List (List U8)) (src dest : U32) (proto : U8) (protoLen : U16) : U16 :=
  let acc := sumPbufs p + (src &&& 0xffff#32) + ((src >>> 16) &&& 0xffff#32) +
    (dest &&& 0xffff#32) + ((dest >>> 16) &&& 0xffff#32) +
    (htons (proto.setWidth 16)).setWidth 32 + (htons protoLen).setWidth 32
  ~~~(foldU32 (foldU32 acc)).setWidth 16

/-- The sum of octets, the first of a pair being the less significant. -/
def octetSum (l : List U8) : Nat := pairs 256 (l.map BitVec.toNat)

section Words

variable {a b : U8} {w : U32} {n : U16} {acc : U32} {l l' : List U8}

theorem swap_nat (m : Nat) :
    (m &&& 0xff) <<< 8 ||| (m &&& 0xff00) >>> 8 = 256 * (m % 256) + m / 256 % 256 := by
  have hlow : m &&& 0xff = m % 256 := Nat.and_two_pow_sub_one_eq_mod m 8
  have hhigh : (m &&& 0xff00) >>> 8 = m / 256 % 256 := by
    rw [Nat.shiftRight_and_distrib, Nat.shiftRight_eq_div_pow]
    exact Nat.and_two_pow_sub_one_eq_mod (m / 256) 8
  rw [hlow, hhigh, ← Nat.shiftLeft_add_eq_or_of_lt (Nat.mod_lt _ (by decide)),
    Nat.shiftLeft_eq]
  omega

/-- Swapping the bytes of a word is a multiplication. -/
theorem rep_swap {m : Nat} (hm : m ≤ 65535) :
    256 * (m % 256) + m / 256 % 256 = rep 65535 (256 * m) := by
  have hsum : 256 * m = 256 * (m % 256) + m / 256 % 256 + 65535 * (m / 256) := by omega
  refine eq_rep (by decide) (by omega) ?_ (by omega)
  rw [hsum]
  simp [Nat.ModEq]

theorem htons_toNat : (htons n).toNat = rep 65535 (256 * n.toNat) := by
  have hlt := n.isLt
  have hlow : n.toNat &&& 0xff = n.toNat % 256 := Nat.and_two_pow_sub_one_eq_mod _ 8
  have hshift : ((n.toNat &&& 0xff) <<< 8) % 2 ^ 16 = (n.toNat &&& 0xff) <<< 8 := by
    rw [hlow, Nat.shiftLeft_eq]
    omega
  rw [← rep_swap (by omega), ← swap_nat, ← hshift]
  rfl

theorem swapBytes_toNat (hw : w.toNat ≤ 65535) :
    (swapBytes w).toNat = rep 65535 (256 * w.toNat) := by
  have hlow : w.toNat &&& 0xff = w.toNat % 256 := Nat.and_two_pow_sub_one_eq_mod _ 8
  have hshift : ((w.toNat &&& 0xff) <<< 8) % 2 ^ 32 = (w.toNat &&& 0xff) <<< 8 := by
    rw [hlow, Nat.shiftLeft_eq]
    omega
  rw [← rep_swap hw, ← swap_nat, ← hshift]
  rfl

theorem foldU32_toNat : (foldU32 w).toNat = fold 65536 w.toNat := by
  have hlt := w.isLt
  have hlow : w.toNat &&& 0xffff = w.toNat % 65536 := Nat.and_two_pow_sub_one_eq_mod _ 16
  have hand : (w &&& 0xffff#32).toNat = w.toNat % 65536 := by
    rw [BitVec.toNat_and, ← hlow]
    rfl
  have hshift : (w >>> 16).toNat = w.toNat / 65536 := by
    rw [BitVec.toNat_ushiftRight, Nat.shiftRight_eq_div_pow]
  unfold foldU32 fold
  rw [BitVec.toNat_add, hand, hshift]
  omega

/-- Two turns put every carry back. -/
theorem fold_twice {m : Nat} (hm : m < 2 ^ 32) :
    fold 65536 (fold 65536 m) = rep 65535 m := by
  refine eq_rep (by decide) ?_ ?_ ?_
  · unfold fold
    omega
  · exact (fold_modEq (by decide)).trans (fold_modEq (by decide))
  · rw [fold_eq_zero, fold_eq_zero]

/-- A word of which the first octet is the more significant one. -/
theorem octets_toNat :
    ((a.setWidth 16 <<< 8 ||| b.setWidth 16 : U16).setWidth 32).toNat = 256 * a.toNat + b.toNat := by
  have ha := a.isLt
  have hb := b.isLt
  have hor : a.toNat <<< 8 ||| b.toNat = a.toNat <<< 8 + b.toNat :=
    (Nat.shiftLeft_add_eq_or_of_lt hb a.toNat).symm
  simp only [BitVec.toNat_setWidth, BitVec.toNat_or, BitVec.toNat_shiftLeft]
  rw [Nat.mod_eq_of_lt (a := a.toNat) (by omega), Nat.mod_eq_of_lt (a := b.toNat) (by omega),
    Nat.mod_eq_of_lt (a := a.toNat <<< 8) (by rw [Nat.shiftLeft_eq]; omega), hor, Nat.shiftLeft_eq]
  omega

/-- The sum with the first octet of a pair as the more significant one. -/
def bigEndian : List U8 → Nat
  | [] => 0
  | [a] => 256 * a.toNat
  | a :: b :: l => 256 * a.toNat + b.toNat + bigEndian l

theorem bigEndian_le : bigEndian l ≤ 65535 * ((l.length + 1) / 2) := by
  induction l using bigEndian.induct with
  | case1 => simp [bigEndian]
  | case2 a =>
      have ha := a.isLt
      simp [bigEndian]
      omega
  | case3 a b l ih =>
      have ha := a.isLt
      have hb := b.isLt
      simp only [bigEndian, List.length_cons]
      omega

/-- The order of the octets is that of the processor up to a swap. -/
theorem bigEndian_modEq : 256 * bigEndian l ≡ octetSum l [MOD 65535] := by
  induction l using bigEndian.induct with
  | case1 => simp [bigEndian, octetSum, pairs, Nat.ModEq]
  | case2 a =>
      simp only [bigEndian, octetSum, pairs, List.map_cons, List.map_nil, Nat.ModEq]
      omega
  | case3 a b l ih =>
      simp only [bigEndian, octetSum, pairs, List.map_cons, Nat.ModEq] at ih ⊢
      omega

theorem bigEndian_eq_zero : bigEndian l = 0 ↔ octetSum l = 0 := by
  induction l using bigEndian.induct with
  | case1 => simp [bigEndian, octetSum, pairs]
  | case2 a => simp [bigEndian, octetSum, pairs]
  | case3 a b l ih =>
      simp only [bigEndian, octetSum, pairs, List.map_cons] at ih ⊢
      omega

theorem octet_toNat : ((a.setWidth 16 <<< 8 : U16).setWidth 32).toNat = 256 * a.toNat := by
  have hoctets := octets_toNat (a := a) (b := 0#8)
  simpa using hoctets

theorem sumOctets_toNat (hacc : acc.toNat + 65535 * ((l.length + 1) / 2) < 2 ^ 32) :
    (sumOctets acc l).toNat = acc.toNat + bigEndian l := by
  induction l using bigEndian.induct generalizing acc with
  | case1 => simp [sumOctets, bigEndian]
  | case2 a =>
      have ha := a.isLt
      simp only [List.length_cons, List.length_nil] at hacc
      simp only [sumOctets, bigEndian]
      rw [BitVec.toNat_add, octet_toNat]
      omega
  | case3 a b l ih =>
      have ha := a.isLt
      have hb := b.isLt
      simp only [List.length_cons] at hacc
      have hsum : (acc + (a.setWidth 16 <<< 8 ||| b.setWidth 16 : U16).setWidth 32).toNat =
          acc.toNat + (256 * a.toNat + b.toNat) := by
        rw [BitVec.toNat_add, octets_toNat]
        omega
      simp only [sumOctets, bigEndian]
      rw [ih (by rw [hsum]; omega), hsum]
      omega

/-- The mask asks whether a carry is left. -/
theorem no_carry (h : w &&& 0xffff0000#32 = 0#32) : w.toNat < 65536 := by
  have hlt := w.isLt
  have hzero : w.toNat &&& 0xffff0000 = 0 := congrArg BitVec.toNat h
  have hshift : (w.toNat &&& 0xffff0000) >>> 16 = w.toNat / 65536 % 65536 := by
    rw [Nat.shiftRight_and_distrib, Nat.shiftRight_eq_div_pow]
    exact Nat.and_two_pow_sub_one_eq_mod (w.toNat / 65536) 16
  rw [hzero] at hshift
  simp at hshift
  omega

/-- `lwip_standard_chksum` represents the sum of its octets. -/
theorem lwipStandardChksum_rep (hl : l.length < 65536) :
    (lwipStandardChksum l).toNat = rep 65535 (octetSum l) := by
  have hle := bigEndian_le (l := l)
  have hsum : (sumOctets 0#32 l).toNat = bigEndian l := by
    rw [sumOctets_toNat (by simp; omega)]
    simp
  have hacc : (if foldU32 (sumOctets 0#32 l) &&& 0xffff0000#32 ≠ 0#32
      then foldU32 (foldU32 (sumOctets 0#32 l))
      else foldU32 (sumOctets 0#32 l)).toNat = rep 65535 (bigEndian l) := by
    split
    · rw [foldU32_toNat, foldU32_toNat, hsum, fold_twice (by omega)]
    · next hcarry =>
        have hlt := no_carry (not_not.mp hcarry)
        rw [foldU32_toNat, hsum] at hlt ⊢
        exact eq_rep (by decide) (by omega) (fold_modEq (by decide)) fold_eq_zero
  have hrep : rep 65535 (bigEndian l) ≤ 65535 := rep_le (by decide)
  unfold lwipStandardChksum
  simp only
  rw [htons_toNat, BitVec.toNat_setWidth, hacc, Nat.mod_eq_of_lt (by omega), rep_mul (by decide)]
  refine rep_congr (by decide) bigEndian_modEq ?_
  rw [← bigEndian_eq_zero]
  omega

end Words

/-! ## Chains -/

section Chains

variable {p q : List (List U8)} {l l' : List U8} {st : U32 × Bool} {src dest : U32} {proto : U8}
  {protoLen : U16}

/-- The loop over a chain has summed these octets; after an odd number of them the bytes of
the sum are swapped. -/
structure Summed (l : List U8) (st : U32 × Bool) : Prop where
  acc : st.1.toNat = rep 65535 (256 ^ l.length * octetSum l)
  swapped : st.2 = decide (l.length % 2 = 1)

theorem octetSum_append :
    octetSum (l ++ l') ≡ octetSum l + 256 ^ l.length * octetSum l' [MOD 65535] := by
  unfold octetSum
  rw [List.map_append]
  simpa using pairs_append (b := 256) (l := l.map BitVec.toNat) (by decide)

theorem octetSum_eq_zero : octetSum l = 0 ↔ ∀ x ∈ l, x = 0#8 := by
  unfold octetSum
  rw [pairs_eq_zero (by decide)]
  simp [BitVec.toNat_eq]

/-- Swapping twice is the identity. -/
theorem pow_modEq {n k : Nat} (h : n % 2 = k % 2) : 256 ^ n ≡ 256 ^ k [MOD 65535] := by
  have hparity : ∀ m, 256 ^ m ≡ 256 ^ (m % 2) [MOD 65535] := by
    intro m
    calc 256 ^ m = (256 * 256) ^ (m / 2) * 256 ^ (m % 2) := by
          rw [← Nat.pow_two, ← Nat.pow_mul, ← Nat.pow_add, Nat.div_add_mod]
      _ ≡ 1 ^ (m / 2) * 256 ^ (m % 2) [MOD 65535] :=
          (Nat.ModEq.pow (m / 2) (by decide)).mul_right _
      _ = 256 ^ (m % 2) := by simp
  exact (hparity n).trans (h ▸ (hparity k).symm)

/-- The sum of the octets so far and of one more buffer. -/
theorem rep_append : rep 65535 (256 ^ l.length * octetSum l + octetSum l') =
    rep 65535 (256 ^ l.length * octetSum (l ++ l')) := by
  refine rep_congr (by decide) ?_ ?_
  · calc 256 ^ l.length * octetSum l + octetSum l'
        = 256 ^ l.length * octetSum l + 256 ^ 0 * octetSum l' := by simp
      _ ≡ 256 ^ l.length * octetSum l + 256 ^ (l.length + l.length) * octetSum l' [MOD 65535] :=
          ((pow_modEq (by omega)).mul_right _).add_left _
      _ = 256 ^ l.length * (octetSum l + 256 ^ l.length * octetSum l') := by
          rw [Nat.pow_add]
          ring
      _ ≡ 256 ^ l.length * octetSum (l ++ l') [MOD 65535] := octetSum_append.symm.mul_left _
  · simp only [Nat.add_eq_zero_iff, Nat.mul_eq_zero, Nat.pow_eq_zero, octetSum_eq_zero,
      List.mem_append]
    constructor
    · rintro ⟨h | h, h'⟩
      · omega
      · exact Or.inr (fun x hx => hx.elim (h x) (h' x))
    · rintro (h | h)
      · omega
      · exact ⟨Or.inr (fun x hx => h x (Or.inl hx)), fun x hx => h x (Or.inr hx)⟩

theorem rep_parity {n k m : Nat} (h : n % 2 = k % 2) :
    rep 65535 (256 ^ n * m) = rep 65535 (256 ^ k * m) := by
  refine rep_congr (by decide) ((pow_modEq h).mul_right m) ?_
  simp

theorem Summed.addPbuf (h : Summed l st) (hq : l'.length < 65536) :
    Summed (l ++ l') (addPbuf st l') := by
  obtain ⟨hacc, hswapped⟩ := h
  have hle : st.1.toNat ≤ 65535 := hacc ▸ rep_le (by decide)
  have hchksum : (lwipStandardChksum l').toNat ≤ 65535 :=
    lwipStandardChksum_rep hq ▸ rep_le (by decide)
  -- after one turn no carry is left, since two words are added
  have hsum : (st.1 + (lwipStandardChksum l').setWidth 32).toNat =
      st.1.toNat + (lwipStandardChksum l').toNat := by
    rw [BitVec.toNat_add, BitVec.toNat_setWidth]
    omega
  have hfold : (foldU32 (st.1 + (lwipStandardChksum l').setWidth 32)).toNat =
      rep 65535 (256 ^ l.length * octetSum (l ++ l')) := by
    rw [foldU32_toNat, hsum]
    have hrep : fold 65536 (st.1.toNat + (lwipStandardChksum l').toNat) =
        rep 65535 (st.1.toNat + (lwipStandardChksum l').toNat) := by
      refine eq_rep (by decide) ?_ (fold_modEq (by decide)) fold_eq_zero
      unfold fold
      omega
    rw [hrep, hacc, lwipStandardChksum_rep hq, rep_add (by decide), Nat.add_comm,
      rep_add (by decide), Nat.add_comm, rep_append]
  unfold Lwip.addPbuf
  simp only
  split
  · next hodd =>
      constructor
      · rw [swapBytes_toNat (hfold ▸ rep_le (by decide)), hfold, rep_mul (by decide),
          ← Nat.mul_assoc, ← Nat.pow_succ']
        exact rep_parity (by rw [List.length_append]; omega)
      · rw [hswapped, List.length_append]
        by_cases hl : l.length % 2 = 1
        · simp [hl]
          omega
        · simp [hl]
          omega
  · next heven =>
      constructor
      · rw [hfold]
        exact rep_parity (by rw [List.length_append]; omega)
      · rw [hswapped, List.length_append]
        refine decide_eq_decide.mpr ?_
        omega

theorem Summed.fold (h : Summed l st) (hp : ∀ q ∈ p, q.length < 65536) :
    Summed (l ++ p.flatten) (p.foldl Lwip.addPbuf st) := by
  induction p generalizing l st with
  | nil => simpa using h
  | cons q p ih =>
      have hrest := ih (h.addPbuf (hp q (by simp))) (fun q' hq' => hp q' (by simp [hq']))
      simpa using hrest

/-- The sum of a chain is that of its octets, wherever it is cut. -/
theorem sumPbufs_rep (hp : ∀ l ∈ p, l.length < 65536) :
    (sumPbufs p).toNat = rep 65535 (octetSum p.flatten) := by
  have hnil : Summed [] (0#32, false) := ⟨by simp [octetSum, pairs], rfl⟩
  obtain ⟨hacc, hswapped⟩ := hnil.fold hp
  rw [List.nil_append] at hacc hswapped
  unfold sumPbufs
  simp only
  split
  · next h =>
      have hodd := of_decide_eq_true (hswapped.symm.trans h)
      rw [swapBytes_toNat (hacc ▸ rep_le (by decide)), hacc, rep_mul (by decide), ← Nat.mul_assoc,
        ← Nat.pow_succ', rep_parity (k := 0) (by omega)]
      simp
  · next h =>
      rw [hswapped, decide_eq_true_eq] at h
      rw [hacc, rep_parity (k := 0) (by omega)]
      simp

/-- The sum of the pseudo header. -/
def pseudoSum (src dest : U32) (proto : U8) (protoLen : U16) : Nat :=
  src.toNat % 65536 + src.toNat / 65536 + dest.toNat % 65536 + dest.toNat / 65536 +
    (htons (proto.setWidth 16)).toNat + (htons protoLen).toNat

theorem complement_toNat {w : U32} (hw : w.toNat ≤ 65535) :
    (~~~w.setWidth 16 : U16).toNat = 65535 - w.toNat := by
  rw [BitVec.toNat_not, BitVec.toNat_setWidth]
  omega

theorem lowWord_toNat {w : U32} : (w &&& 0xffff#32).toNat = w.toNat % 65536 := by
  rw [BitVec.toNat_and]
  exact Nat.and_two_pow_sub_one_eq_mod w.toNat 16

theorem highWord_toNat {w : U32} : ((w >>> 16) &&& 0xffff#32).toNat = w.toNat / 65536 := by
  have hlt := w.isLt
  rw [lowWord_toNat, BitVec.toNat_ushiftRight, Nat.shiftRight_eq_div_pow]
  omega

theorem inetChksumPbuf_rep (hp : ∀ l ∈ p, l.length < 65536) :
    (inetChksumPbuf p).toNat = 65535 - rep 65535 (octetSum p.flatten) := by
  unfold inetChksumPbuf
  rw [complement_toNat (sumPbufs_rep hp ▸ rep_le (by decide)), sumPbufs_rep hp]

theorem inetChksumPseudo_rep (hp : ∀ l ∈ p, l.length < 65536) :
    (inetChksumPseudo p src dest proto protoLen).toNat =
      65535 - rep 65535 (octetSum p.flatten + pseudoSum src dest proto protoLen) := by
  have hsum := sumPbufs_rep hp
  have hle : rep 65535 (octetSum p.flatten) ≤ 65535 := rep_le (by decide)
  have hproto := (htons (proto.setWidth 16)).isLt
  have hlen := (htons protoLen).isLt
  have hsrc := src.isLt
  have hdest := dest.isLt
  have hacc : (sumPbufs p + (src &&& 0xffff#32) + ((src >>> 16) &&& 0xffff#32) +
      (dest &&& 0xffff#32) + ((dest >>> 16) &&& 0xffff#32) +
      (htons (proto.setWidth 16)).setWidth 32 + (htons protoLen).setWidth 32).toNat =
      rep 65535 (octetSum p.flatten) + pseudoSum src dest proto protoLen := by
    simp only [BitVec.toNat_add, BitVec.toNat_setWidth, hsum, pseudoSum]
    rw [highWord_toNat (w := src), highWord_toNat (w := dest), lowWord_toNat, lowWord_toNat]
    omega
  have hfold : (foldU32 (foldU32 (sumPbufs p + (src &&& 0xffff#32) +
      ((src >>> 16) &&& 0xffff#32) + (dest &&& 0xffff#32) + ((dest >>> 16) &&& 0xffff#32) +
      (htons (proto.setWidth 16)).setWidth 32 + (htons protoLen).setWidth 32))).toNat =
      rep 65535 (octetSum p.flatten + pseudoSum src dest proto protoLen) := by
    rw [foldU32_toNat, foldU32_toNat, fold_twice (BitVec.isLt _), hacc, rep_add (by decide)]
  unfold inetChksumPseudo
  simp only
  rw [complement_toNat (hfold ▸ rep_le (by decide)), hfold]

/-- The receiver accepts sums that are a multiple of `0xffff`, but not zero. -/
theorem accepted_iff {c : U16} {n : Nat} (hc : c.toNat = 65535 - rep 65535 n) :
    c = 0#16 ↔ n ≠ 0 ∧ n ≡ 0 [MOD 65535] := by
  have hle : rep 65535 n ≤ 65535 := rep_le (by decide)
  rw [← rep_eq_self (by decide), ← BitVec.toNat_inj, hc]
  simp
  omega

end Chains

/-! ## Senders and receivers -/

/-- The octets of a word in memory. -/
def wordOctets (w : U16) : List U8 := [w.setWidth 8, (w >>> 8).setWidth 8]

section Segments

variable {p q : List (List U8)} {u v : List U8} {w z : U16} {src dest : U32} {proto : U8}
  {protoLen : U16}

theorem word_toNat : (w.setWidth 8).toNat + 256 * ((w >>> 8).setWidth 8).toNat = w.toNat := by
  have hlt := w.isLt
  rw [BitVec.toNat_setWidth, BitVec.toNat_setWidth, BitVec.toNat_ushiftRight,
    Nat.shiftRight_eq_div_pow]
  omega

/-- A word at an even place is added to the sum of the others. -/
theorem octetSum_word (heven : u.length % 2 = 0) :
    octetSum (u ++ wordOctets w ++ v) =
      octetSum (u ++ wordOctets 0#16 ++ v) + w.toNat := by
  unfold octetSum
  simp only [wordOctets, List.map_append, List.append_assoc, List.map_cons,
    List.cons_append, List.nil_append]
  rw [pairs_even (by simpa using heven), word_toNat]
  simp

/-- What `inet_chksum_pseudo` gives a receiver, in terms of the one word. -/
theorem pseudo_accepted_iff (hp : ∀ l ∈ p, l.length < 65536) (heven : u.length % 2 = 0)
    (hflat : p.flatten = u ++ wordOctets w ++ v) :
    inetChksumPseudo p src dest proto protoLen = 0#16 ↔
      octetSum (u ++ wordOctets 0#16 ++ v) + pseudoSum src dest proto protoLen +
          w.toNat ≠ 0 ∧
        octetSum (u ++ wordOctets 0#16 ++ v) + pseudoSum src dest proto protoLen +
          w.toNat ≡ 0 [MOD 65535] := by
  rw [accepted_iff (inetChksumPseudo_rep hp), hflat, octetSum_word heven, Nat.add_right_comm]

/-- A segment with the checksum that the sender has computed over it, with zero in its place,
is accepted by the receiver, wherever the chains are cut; and so it is with `0xffff` for a
zero, which UDP sends. -/
theorem pseudo_chksum_verifies (hp : ∀ l ∈ p, l.length < 65536) (hq : ∀ l ∈ q, l.length < 65536)
    (heven : u.length % 2 = 0) (hsent : p.flatten = u ++ wordOctets 0#16 ++ v)
    (hreceived : q.flatten = u ++ wordOctets w ++ v)
    (hw : w = inetChksumPseudo p src dest proto protoLen ∨
      (inetChksumPseudo p src dest proto protoLen = 0#16 ∧ w = 0xffff#16)) :
    inetChksumPseudo q src dest proto protoLen = 0#16 := by
  have hchksum : (inetChksumPseudo p src dest proto protoLen).toNat = 65535 - rep 65535
      (octetSum (u ++ wordOctets 0#16 ++ v) + pseudoSum src dest proto protoLen) := by
    rw [inetChksumPseudo_rep hp, hsent]
  rw [pseudo_accepted_iff hq heven hreceived]
  rcases hw with rfl | ⟨hzero, rfl⟩
  · rw [hchksum]
    exact ⟨complement_ne_zero (by decide), complement_modEq (by decide)⟩
  · obtain ⟨hne, hmod⟩ := (accepted_iff hchksum).mp hzero
    constructor
    · simp
    · exact (hmod.add_right 65535).trans (by simp [Nat.ModEq])

/-- A receiver that accepts a segment rejects what differs from it in one word, unless this
was changed from one zero of ones' complement arithmetic to the other. -/
theorem pseudo_chksum_detects (hp : ∀ l ∈ p, l.length < 65536) (hq : ∀ l ∈ q, l.length < 65536)
    (hproto : proto ≠ 0#8) (heven : u.length % 2 = 0)
    (hfirst : p.flatten = u ++ wordOctets w ++ v)
    (hsecond : q.flatten = u ++ wordOctets z ++ v)
    (haccept : inetChksumPseudo p src dest proto protoLen = 0#16) :
    inetChksumPseudo q src dest proto protoLen = 0#16 ↔
      z = w ∨ (w = 0#16 ∧ z = 0xffff#16) ∨ (w = 0xffff#16 ∧ z = 0#16) := by
  have hlt := w.isLt
  have hlt' := z.isLt
  -- the protocol keeps the sum from being zero
  have hpos : pseudoSum src dest proto protoLen ≠ 0 := by
    have hproto' : (htons (proto.setWidth 16)).toNat ≠ 0 := by
      rw [htons_toNat, Ne, rep_eq_zero]
      have hne : proto.toNat ≠ 0 := fun h => hproto (BitVec.eq_of_toNat_eq h)
      simp [BitVec.toNat_setWidth]
      omega
    unfold pseudoSum
    omega
  rw [pseudo_accepted_iff hp heven hfirst] at haccept
  rw [pseudo_accepted_iff hq heven hsecond]
  simp only [← BitVec.toNat_inj, BitVec.toNat_ofNat, Nat.ModEq] at haccept ⊢
  omega

/-- A datagram of five octets, cut before and after the checksum was put in. -/
theorem pseudo_chksum_verifies_odd :
    inetChksumPseudo [[0x12#8], [0x34#8] ++ wordOctets (inetChksumPseudo
        [[0x12#8, 0x34#8, 0#8], [0#8, 0xab#8]] 0x0f02000a#32 0x0202000a#32 17#8 5#16) ++ [0xab#8]]
      0x0f02000a#32 0x0202000a#32 17#8 5#16 = 0#16 :=
  pseudo_chksum_verifies (p := [[0x12#8, 0x34#8, 0#8], [0#8, 0xab#8]])
    (u := [0x12#8, 0x34#8]) (v := [0xab#8]) (by simp) (by simp [wordOctets]) (by simp)
    (by simp [wordOctets]) (by simp [wordOctets]) (Or.inl rfl)

/-- The checksum of that datagram with another octet in it. -/
theorem pseudo_chksum_detects_odd :
    inetChksumPseudo [[0x12#8], [0x35#8, 0x2a#8, 0xa4#8, 0xab#8]]
      0x0f02000a#32 0x0202000a#32 17#8 5#16 ≠ 0#16 :=
  mt (pseudo_chksum_detects (p := [[0x12#8, 0x34#8, 0x2a#8], [0xa4#8, 0xab#8]]) (u := [])
    (w := 0x3412#16) (z := 0x3512#16) (v := [0x2a#8, 0xa4#8, 0xab#8])
    (by simp) (by simp) (by decide) (by simp) (by simp [wordOctets]) (by simp [wordOctets]) (by decide)).mp (by decide)

end Segments

/-! ## `lwip/core/ipv4/icmp.c` -/

/-- What `icmp_input` adds to the checksum for the type that it changes. -/
def echoReplyChksum (chksum : U16) : U16 :=
  if htons (0xffff#16 - (8#16 <<< 8)) ≤ chksum then chksum + (htons (8#16 <<< 8) + 1#16)
  else chksum + htons (8#16 <<< 8)

/-- The echo request at `iecho` becomes a reply. -/
def echoReply : List U8 → List U8
  | _ :: code :: c :: c' :: rest =>
      0#8 :: code :: (wordOctets (echoReplyChksum (c'.setWidth 16 <<< 8 ||| c.setWidth 16)) ++ rest)
  | octets => octets

/-- `icmp_input`, from the header of a message to the reply that it sends. -/
def icmpInput (p : List (List U8)) : Option (List U8) :=
  let octets := p.flatten
  if octets.length < 4 then none
  else if octets.head? ≠ some 8#8 then none
  else if octets.length < 8 then none
  else if inetChksumPbuf p ≠ 0#16 then none
  else some (echoReply octets)

section Echo

variable {p q : List (List U8)} {a b : U8} {c : U16} {l r : List U8}

theorem octets_word : wordOctets (b.setWidth 16 <<< 8 ||| a.setWidth 16) = [a, b] := by
  simp only [wordOctets, List.cons.injEq, and_true]
  constructor
  · ext i hi
    simp
  · ext i hi
    have hi' : i < 16 := by omega
    have hi'' : 8 + i < 16 := by omega
    simp [hi, hi', hi'', ← BitVec.getLsbD_eq_getElem]

theorem octetSum_header : octetSum (a :: b :: (wordOctets c ++ l)) =
    a.toNat + 256 * b.toNat + c.toNat + octetSum l := by
  have hword := word_toNat (w := c)
  simp only [octetSum, wordOctets, List.cons_append, List.nil_append, List.map_cons, pairs]
  omega

/-- The type is taken out of the sum and into the checksum, or one more with the carry. -/
theorem echoReplyChksum_toNat : (echoReplyChksum c).toNat = c.toNat + 8 ∨
    (echoReplyChksum c).toNat + 65535 = c.toNat + 8 := by
  have hc := c.isLt
  have hbound : htons (0xffff#16 - (8#16 <<< 8)) = 0xfff7#16 := by decide
  have hsmall : htons (8#16 <<< 8) = 8#16 := by decide
  unfold echoReplyChksum
  rw [hbound, hsmall]
  split
  · next h =>
      have hle : 65527 ≤ c.toNat := h
      right
      rw [BitVec.toNat_add, BitVec.toNat_add]
      simp
      omega
  · next h =>
      have hlt : c.toNat < 65527 := Nat.lt_of_not_le h
      left
      rw [BitVec.toNat_add]
      simp
      omega

/-- A reply has the checksum of its octets exactly when one of them is not zero. -/
theorem echo_reply_accepted (hp : ∀ l ∈ p, l.length < 65536) (hq : ∀ l ∈ q, l.length < 65536)
    (hreply : icmpInput p = some r) (hsent : q.flatten = r) :
    inetChksumPbuf q = 0#16 ↔ ∃ x ∈ r, x ≠ 0#8 := by
  have hsome : (octetSum r ≠ 0) ↔ ∃ x ∈ r, x ≠ 0#8 := by
    rw [Ne, octetSum_eq_zero]
    simp
  rw [accepted_iff (inetChksumPbuf_rep hq), hsent, ← hsome, and_iff_left_iff_imp]
  intro _
  unfold icmpInput at hreply
  simp only [Option.ite_none_left_eq_some, Option.some.injEq, not_not] at hreply
  obtain ⟨-, htype, hlen, haccept, rfl⟩ := hreply
  obtain ⟨-, hmod⟩ := (accepted_iff (inetChksumPbuf_rep hp)).mp haccept
  match hoctets : p.flatten with
  | [] | [_] | [_, _] | [_, _, _] => simp [hoctets] at hlen
  | a :: code :: c :: c' :: rest =>
      rw [hoctets, List.head?_cons, Option.some.injEq] at htype
      have hrequest : p.flatten =
          8#8 :: code :: (wordOctets (c'.setWidth 16 <<< 8 ||| c.setWidth 16) ++ rest) := by
        rw [hoctets, octets_word, htype]
        simp
      rw [hrequest, octetSum_header] at hmod
      unfold echoReply
      rw [octetSum_header]
      generalize c'.setWidth 16 <<< 8 ||| c.setWidth 16 = w at hmod ⊢
      simp only [BitVec.toNat_ofNat, Nat.ModEq] at hmod ⊢
      rcases echoReplyChksum_toNat (c := w) with h | h
      · omega
      · omega

/-- To an empty request, with the identifier and the sequence number zero, the reply is all
zero. -/
theorem echo_reply_accepted_empty :
    inetChksumPbuf [[0#8, 0#8, 0#8, 0#8, 0#8, 0#8, 0#8, 0#8]] ≠ 0#16 :=
  mt (echo_reply_accepted (p := [[8#8, 0#8, 0xf7#8, 0xff#8, 0#8], [0#8, 0#8, 0#8]])
    (r := [0#8, 0#8, 0#8, 0#8, 0#8, 0#8, 0#8, 0#8]) (by simp) (by simp) (by decide) rfl).mp
    (by decide)

end Echo

end Lwip

end Jos

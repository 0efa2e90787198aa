import Jos.BlockBits
import Jos.DiskImage

/-!
# What `fsformat` writes

One lemma for each function of the formatter, for the runs that do not panic; `main`
leaves an `Image` behind.
-/

namespace Jos

open Programs Bytes

namespace Format

section Blocks

variable {h : Host} {f p n : Nat}

/-- Rounding up wraps for no size that fits into a disk, and not for zero. -/
theorem roundup_toNat {n : U32} (hn : n.toNat ≤ 0xFFFFF000) :
    (roundup n).toNat = blocksOf n.toNat * 4096 := by
  unfold roundup blocksOf
  by_cases hzero : n = 0#32
  · subst hzero
    decide
  · have hpos : 0 < n.toNat := by
      refine Nat.pos_of_ne_zero (fun h => hzero ?_)
      exact BitVec.eq_of_toNat_eq h
    have hpred : (n - 1#32).toNat = n.toNat - 1 := by
      simp only [BitVec.toNat_sub, BitVec.toNat_ofNat]
      omega
    have hrem : ((n - 1#32) % 4096#32).toNat = (n.toNat - 1) % 4096 := by
      rw [BitVec.toNat_umod, hpred]
      rfl
    rw [BitVec.toNat_sub, BitVec.toNat_add, hrem, hpred]
    simp only [BitVec.toNat_ofNat]
    omega

/-- For an `int` it is the same, except that zero is rounded up to a block. -/
theorem roundupInt_toNat {n : U32} (hn : n.toNat ≤ 0x10000) :
    (roundupInt n).toNat = max 1 (blocksOf n.toNat) * 4096 := by
  by_cases hzero : n = 0#32
  · subst hzero
    decide
  · have hpos : 0 < n.toNat := by
      refine Nat.pos_of_ne_zero (fun h => hzero ?_)
      exact BitVec.eq_of_toNat_eq h
    have hmsb : (n - 1#32).msb = false := by
      rw [BitVec.msb_eq_false_iff_two_mul_lt]
      simp only [BitVec.toNat_sub, BitVec.toNat_ofNat]
      omega
    have hrem : (n - 1#32).srem 4096#32 = (n - 1#32) % 4096#32 := by
      rw [BitVec.srem_eq, hmsb]
      rfl
    have hround : roundupInt n = roundup n := by
      unfold roundupInt roundup
      rw [hrem]
    rw [hround, roundup_toNat (by omega)]
    unfold blocksOf
    omega

theorem blockof_blkVa : blockof (blkVa p) = BitVec.ofNat 32 p := by
  unfold blockof blkVa blksize
  rw [Nat.add_sub_cancel_left, Nat.mul_div_cancel _ (by decide)]

/-- `alloc` takes the next blocks, or panics. -/
theorem alloc_wp {bytes : U32} (hpos : h.diskpos = blkVa p) (hp : p < 2 ^ 20)
    (hbytes : bytes.toNat ≤ 0xFFFFF000) :
    wp (alloc bytes) (Partial (fun start h' => start = blkVa p ∧
      h' = { h with diskpos := blkVa (p + blocksOf bytes.toNat) } ∧
      p + blocksOf bytes.toNat < h.nblocks.toNat) (fun _ => False)) h := by
  have hnext : h.diskpos + (roundup bytes).toNat = blkVa (p + blocksOf bytes.toNat) := by
    rw [hpos, roundup_toNat hbytes, blkVa_add]
  unfold alloc
  rw [wp_get_bind, wp_modify_bind, wp_get_bind, hnext]
  refine (wp_bind _ _ _).mpr (wp_when (fun _ => trivial) (fun hno => ?_))
  refine ⟨hpos, rfl, ?_⟩
  have hlt : BitVec.ofNat 32 (p + blocksOf bytes.toNat) < h.nblocks := by
    rw [← blockof_blkVa]
    exact BitVec.not_le.mp hno
  have hbound : p + blocksOf bytes.toNat < 2 ^ 32 := by
    unfold blocksOf
    omega
  have htoNat := BitVec.lt_def.mp hlt
  rwa [BitVec.toNat_ofNat, Nat.mod_eq_of_lt hbound] at htoNat

/-- The slots are set one after the other. -/
theorem putBlocks_returns {slots first : Nat} {start : U32} :
    Returns (putBlocks slots start first n) (fun _ h' => ∃ m, h' = { h with mem := m } ∧
      (∀ j, j < n → word m (slots + 4 * j) = start + BitVec.ofNat 32 (first + j)) ∧
      ∀ x, x < slots ∨ slots + 4 * n ≤ x → m x = h.mem x) h := by
  unfold putBlocks
  refine Returns.mono (returns_forRange (fun i h' => ∃ m, h' = { h with mem := m } ∧
    (∀ j, first + j < i → word m (slots + 4 * j) = start + BitVec.ofNat 32 (first + j)) ∧
    ∀ x, x < slots ∨ slots + 4 * (i - first) ≤ x → m x = h.mem x) first n ?_ ?_) ?_
  · rintro i _ hle hlt ⟨m, rfl, hset, hrest⟩
    refine ⟨setWord m (slots + 4 * (i - first)) (start + BitVec.ofNat 32 i), rfl,
      fun j hj => ?_, fun x hx => ?_⟩
    · by_cases hji : first + j = i
      · subst hji
        rw [Nat.add_sub_cancel_left]
        exact word_setWord_self
      · rw [word_setWord_of_apart (by omega)]
        exact hset j (by omega)
    · rw [setWord_of_apart (by omega)]
      exact hrest x (by omega)
  · exact ⟨h.mem, rfl, fun j hj => by omega, fun x _ => rfl⟩
  · rintro _ _ ⟨m, rfl, hset, hrest⟩
    refine ⟨m, rfl, fun j hj => hset j (by omega), fun x hx => hrest x ?_⟩
    rwa [Nat.add_sub_cancel_left]

theorem ofNat_add_ofNat {a b : Nat} :
    BitVec.ofNat 32 a + BitVec.ofNat 32 b = BitVec.ofNat 32 (a + b) :=
  (BitVec.ofNat_add a b).symm

/-- `finishfile` sets the size and the slots of a record that has none, and takes one
more block for the indirect block. -/
theorem finishfile_wp {start : Nat} {len : U32} (hn : blocksOf len.toNat = n)
    (hlen : len.toNat ≤ maxfilesize) (hpos : h.diskpos = blkVa p) (hp : p < 2 ^ 19)
    (hstart : ndirect ≤ n → start + n = p)
    (hslots : ∀ x, f + 136 ≤ x → x < f + 180 → h.mem x = 0#8)
    (hblocks : ∀ x, blkVa p ≤ x → x < blkVa h.nblocks.toNat → h.mem x = 0#8)
    (hfar : f + 180 ≤ blkVa p ∨ blkVa h.nblocks.toNat ≤ f) :
    wp (finishfile f (BitVec.ofNat 32 start) len) (Partial (fun _ h' => ∃ m,
      h' = { h with mem := m, diskpos := blkVa (p + if ndirect ≤ n then 1 else 0) } ∧
      (ndirect ≤ n → p + 1 < h.nblocks.toNat) ∧
      word m (fSizeVa f) = len ∧ Extent m f start n ∧
      ∀ x, x < f + 128 ∨ f + 132 ≤ x ∧ x < f + 136 ∨ f + 180 ≤ x →
        x < blkVa p ∨ blkVa (p + if ndirect ≤ n then 1 else 0) ≤ x → m x = h.mem x)
      (fun _ => False)) h := by
  have hd : ndirect = 10 := rfl
  have hbound : len.toNat ≤ 4235264 := hlen
  have hround : (roundup len / 4096#32).toNat = n := by
    rw [BitVec.toNat_udiv, roundup_toNat (by omega), hn]
    exact Nat.mul_div_cancel _ (by decide)
  have hmax : n ≤ 1034 := by
    unfold blocksOf at hn
    omega
  unfold finishfile
  rw [hround]
  refine wp_modify_bind.mpr ((wp_bind _ _ _).mpr (wp_of_returns putBlocks_returns ?_))
  rintro _ _ ⟨m, rfl, hset, hrest⟩
  replace hset : ∀ i, i < min n ndirect →
      word m (f + 136 + 4 * i) = BitVec.ofNat 32 (start + i) := fun i hi => by
    have hput := hset i hi
    rw [Nat.zero_add, ofNat_add_ofNat] at hput
    exact hput
  replace hrest : ∀ x, x < f + 136 ∨ f + 136 + 4 * min n ndirect ≤ x →
      m x = setWord h.mem (f + 128) len x := hrest
  have hsize : word m (f + 128) = len := by
    have hself : word (setWord h.mem (f + 128) len) (f + 128) = len := word_setWord_self
    exact (word_congr (fun x hle hlt => hrest x (by omega))).trans hself
  have hzero : ∀ x, f + 136 + 4 * min n ndirect ≤ x → x < f + 180 → m x = 0#8 := by
    intro x hle hlt
    rw [hrest x (Or.inr hle), setWord_of_apart (by omega)]
    exact hslots x (by omega) hlt
  have hframe : ∀ x, x < f + 128 ∨ f + 132 ≤ x ∧ x < f + 136 ∨ f + 180 ≤ x →
      m x = h.mem x := by
    intro x hx
    rw [hrest x (by omega)]
    exact setWord_of_apart (by omega)
  refine wp_when (fun hfull => ?_) (fun hshort => ?_)
  · -- there is an indirect block, even if it has no entries
    have hten : ndirect ≤ n := by omega
    obtain rfl : start + n = p := hstart hten
    refine (wp_bind _ _ _).mpr (wp_mono (alloc_wp hpos (by omega) (by decide)) ?_
      (fun _ => False.elim) (fun _ _ => trivial))
    rintro _ _ ⟨rfl, rfl, hroom⟩
    have hone : blocksOf (4096#32 : U32).toNat = 1 := by decide
    rw [hone] at hroom
    replace hroom : start + n + 1 < h.nblocks.toNat := hroom
    refine wp_modify_bind.mpr (wp_of_returns putBlocks_returns ?_)
    rintro _ _ ⟨m', rfl, hset', hrest'⟩
    replace hrest' : ∀ x, x < blkVa (start + n) ∨ blkVa (start + n) + 4 * (n - ndirect) ≤ x →
        m' x = setWord m (f + 176) (BitVec.ofNat 32 (start + n)) x := by
      rw [← blockof_blkVa]
      exact hrest'
    have hblock : blkVa (start + n + 1) = blkVa (start + n) + 4096 := blkVa_add
    have hend : blkVa (start + n) + 4096 ≤ blkVa h.nblocks.toNat := by
      unfold blkVa blksize
      omega
    have hrecord : ∀ a, f ≤ a → a + 4 ≤ f + 180 →
        word m' a = word (setWord m (f + 176) (BitVec.ofNat 32 (start + n))) a :=
      fun a hle hlt => word_congr (fun x hx hx' => hrest' x (by omega))
    simp only [hone, if_pos hten]
    refine ⟨m', rfl, fun _ => hroom, ?_, extent_indirect hten (fun i hi => ?_) ?_
      (fun j hj => ?_) (fun x hle hlt => ?_), fun x hx hx' => ?_⟩
    · unfold fSizeVa
      rw [hrecord _ (by omega) (by omega), word_setWord_of_apart (by omega)]
      exact hsize
    · rw [hrecord _ (by omega) (by omega),
        word_setWord_of_apart (by omega)]
      exact hset i (by omega)
    · rw [hrecord _ (by omega) (by omega)]
      exact word_setWord_self
    · rw [← ofNat_add_ofNat]
      exact hset' j hj
    · rw [hrest' x (Or.inr hle), setWord_of_apart (by omega), hframe x (by omega)]
      exact hblocks x (by omega) (by omega)
    · rw [hrest' x (by omega), setWord_of_apart (by omega)]
      exact hframe x hx
  · have hten : ¬ ndirect ≤ n := by omega
    have hmin : min n ndirect = n := Nat.min_eq_left (by omega)
    rw [hmin] at hset hzero
    simp only [if_neg hten]
    refine ⟨m, ?_, fun h => absurd h hten, hsize, extent_direct (by omega) hset hzero,
      fun x hx _ => hframe x hx⟩
    simp only [Nat.add_zero, ← hpos]

end Blocks

/-! ## Files -/

/-- From record `n` of the directory and from block `p` on there are only zeros. -/
structure Blank (h : Host) (n p : Nat) : Prop where
  pos : h.diskpos = blkVa p
  room : p < h.nblocks.toNat
  small : h.nblocks.toNat ≤ 1024
  ents : ∀ x, entsVa + 256 * n ≤ x → x < entsVa + 256 * maxDirEnts → h.mem x = 0#8
  blocks : ∀ x, blkVa p ≤ x → x < blkVa h.nblocks.toNat → h.mem x = 0#8

section Files

variable {h : Host} {f p n b : Nat} {g : HostFile}

theorem blkVa_le_entsVa (hb : b ≤ 1024) : blkVa b + 4096 ≤ entsVa := by
  unfold blkVa diskmap blksize entsVa
  omega

theorem blkVa_mono {a : Nat} (hab : a ≤ b) : blkVa a ≤ blkVa b :=
  Nat.add_le_add_left (Nat.mul_le_mul_right _ hab) _

theorem nameAt_setBytes {v : Bytes.Memory} {name : List U8} :
    NameAt (setBytes v f (name ++ [0#8])) f name := by
  unfold NameAt
  have hlen : name.length + 1 = (name ++ [0#8]).length := by simp
  rw [hlen]
  exact bytesAt_setBytes_self

/-- `diradd` names the next record, or panics. -/
theorem diradd_wp {d : HostDir} {type : U32} {name : List U8} :
    wp (diradd d type name) (Partial (fun r h' =>
      r = (d.ents + 256 * d.n, { d with n := d.n + 1 }) ∧
      d.n + 1 ≤ maxDirEnts ∧ h' =
        { h with
          mem := setWord (setBytes h.mem (d.ents + 256 * d.n) (name ++ [0#8]))
            (fTypeVa (d.ents + 256 * d.n)) type })
      (fun _ => False)) h := by
  unfold diradd
  refine (wp_bind _ _ _).mpr (wp_when (fun _ => trivial) (fun hcount => ?_))
  exact ⟨rfl, Nat.le_of_not_lt hcount, rfl⟩

/-- `writefile` adds a record and the blocks of the file. -/
theorem writefile_wp (hblank : Blank h n p) (hshort : g.name.length < maxnamelen) :
    wp (writefile ⟨f, entsVa, n⟩ g) (Partial (fun d h' => d = ⟨f, entsVa, n + 1⟩ ∧
      ∃ m, h' = { h with mem := m, diskpos := blkVa (p + g.span) } ∧ n + 1 ≤ maxDirEnts ∧
        Blank h' (n + 1) (p + g.span) ∧ FileAt m (entsVa + 256 * n) p g ∧
        ∀ x, x < blkVa p ∨ entsVa ≤ x ∧ x < entsVa + 256 * n → m x = h.mem x)
      (fun _ => False)) h := by
  have hroom := hblank.room
  have hsmall := hblank.small
  have hents := blkVa_le_entsVa hsmall
  have hlow := blkVa_mono (Nat.le_of_lt hroom)
  have hname : g.name.length < 128 := hshort
  unfold writefile
  refine (wp_bind _ _ _).mpr (wp_when (fun _ => trivial) (fun hsize => ?_))
  have hlt : g.data.length < 4235264 := Nat.lt_of_not_le hsize
  have htoNat : (BitVec.ofNat 32 g.data.length).toNat = g.data.length := by
    rw [BitVec.toNat_ofNat]
    omega
  have hfit := blocksOf_le (n := g.data.length)
  refine (wp_bind _ _ _).mpr (wp_mono diradd_wp ?_ (fun _ => False.elim) (fun _ _ => trivial))
  rintro _ _ ⟨rfl, hcount, rfl⟩
  replace hcount : n + 1 ≤ 128 := hcount
  refine (wp_bind _ _ _).mpr (wp_mono (alloc_wp (p := p) hblank.pos (by omega) (by omega)) ?_
    (fun _ => False.elim) (fun _ _ => trivial))
  rintro _ _ ⟨rfl, rfl, hroom'⟩
  rw [htoNat] at hroom'
  replace hroom' : p + blocksOf g.data.length < h.nblocks.toNat := hroom'
  have hlow' := blkVa_mono (Nat.le_of_lt hroom')
  have hnext : blkVa (p + blocksOf g.data.length) = blkVa p + blocksOf g.data.length * 4096 :=
    blkVa_add
  -- the record without its slots, and the contents
  generalize hf : entsVa + 256 * n = r
  let m₁ := setWord (setBytes h.mem r (g.name ++ [0#8])) (fTypeVa r) ftypeReg
  let m₂ := setBytes m₁ (blkVa p) g.data
  have hfar₁ : ∀ x, x < r ∨ r + 136 ≤ x → m₁ x = h.mem x := by
    intro x hx
    refine (setWord_of_apart (by unfold fTypeVa; omega)).trans (setBytes_of_apart ?_)
    simp only [List.length_append, List.length_singleton]
    omega
  have hfar₂ : ∀ x, x < blkVa p ∨ blkVa p + g.data.length ≤ x → m₂ x = m₁ x := fun x hx =>
    setBytes_of_apart hx
  refine wp_modify_bind.mpr ?_
  dsimp only
  rw [blockof_blkVa, htoNat]
  refine (wp_bind _ _ _).mpr (wp_mono (finishfile_wp
    (h := { h with mem := m₂, diskpos := blkVa (p + blocksOf g.data.length) })
    (p := p + blocksOf g.data.length) (n := blocksOf g.data.length) (by rw [htoNat])
    (by rw [htoNat]; exact Nat.le_of_lt hlt) rfl (by omega) (fun _ => rfl) ?_ ?_ ?_) ?_
    (fun _ => False.elim) (fun _ _ => trivial))
  · intro x hle hlt'
    show m₂ x = 0#8
    rw [hfar₂ x (by omega), hfar₁ x (by omega)]
    exact hblank.ents x (by omega) (by unfold maxDirEnts; omega)
  · intro x hle hlt'
    replace hlt' : x < blkVa h.nblocks.toNat := hlt'
    show m₂ x = 0#8
    rw [hfar₂ x (by omega), hfar₁ x (by omega)]
    exact hblank.blocks x (by omega) hlt'
  · exact Or.inr (by show blkVa h.nblocks.toNat ≤ r; omega)
  · rintro _ _ ⟨m, rfl, hroom'', hsize', hextent, hframe⟩
    have hspan : p + blocksOf g.data.length + (if ndirect ≤ blocksOf g.data.length then 1 else 0) =
        p + g.span := Nat.add_assoc _ _ _
    have hlast : p + g.span < h.nblocks.toNat := by
      rw [← hspan]
      split
      · exact hroom'' ‹_›
      · exact hroom'
    have hend := blkVa_mono (Nat.le_of_lt hlast)
    rw [hspan] at hframe
    replace hframe : ∀ x, x < r + 128 ∨ r + 132 ≤ x ∧ x < r + 136 ∨ r + 180 ≤ x →
      x < blkVa (p + blocksOf g.data.length) ∨ blkVa (p + g.span) ≤ x → m x = m₂ x := hframe
    have hrest : ∀ x, x < r ∨ r + 180 ≤ x → x < blkVa p ∨ blkVa (p + g.span) ≤ x →
        m x = h.mem x := by
      intro x hx hx'
      have hmono := blkVa_mono (a := p + blocksOf g.data.length) (b := p + g.span) (by omega)
      rw [hframe x (by omega) (by omega), hfar₂ x (by omega), hfar₁ x (by omega)]
    rw [hspan]
    refine ⟨rfl, m, rfl, hcount, ⟨rfl, hlast, hsmall, fun x hle hlt' => ?_,
      fun x hle hlt' => ?_⟩, ⟨hshort, Nat.lt_of_not_le hsize, ?_, ?_, hsize', hextent, ?_⟩,
      fun x hx => ?_⟩
    · exact (hrest x (by omega) (by omega)).trans (hblank.ents x (by omega) hlt')
    · replace hlt' : x < blkVa h.nblocks.toNat := hlt'
      have hmono := blkVa_mono (a := p) (b := p + g.span) (by omega)
      exact (hrest x (by omega) (by omega)).trans (hblank.blocks x (by omega) hlt')
    · have hstring : ∀ x, r ≤ x → x < r + (g.name.length + 1) →
          m x = setBytes h.mem r (g.name ++ [0#8]) x := by
        intro x hle hlt'
        rw [hframe x (by omega) (by omega), hfar₂ x (by omega)]
        exact setWord_of_apart (by unfold fTypeVa; omega)
      exact (bytesAt_congr hstring).trans nameAt_setBytes
    · have htype : word m₁ (fTypeVa r) = ftypeReg := word_setWord_self
      refine (word_congr (fun x hle hlt' => ?_)).trans htype
      unfold fTypeVa at hle hlt'
      rw [hframe x (by omega) (by omega), hfar₂ x (by omega)]
    · have hdata : bytesAt m₂ (blkVa p) g.data.length = g.data := bytesAt_setBytes_self
      refine (bytesAt_congr (fun x hle hlt' => ?_)).trans hdata
      exact hframe x (by omega) (by omega)
    · exact hrest x (by omega) (by omega)

/-- The files come one after the other, and so do their records. -/
theorem writefiles_wp {gs : List HostFile} (hblank : Blank h n p)
    (hshort : ∀ g ∈ gs, g.name.length < maxnamelen) (hn : n ≤ maxDirEnts) :
    wp (writefiles ⟨f, entsVa, n⟩ gs) (Partial (fun d h' => d = ⟨f, entsVa, n + gs.length⟩ ∧
      ∃ m, h' = { h with mem := m, diskpos := blkVa (endOf p gs) } ∧
        n + gs.length ≤ maxDirEnts ∧ Blank h' (n + gs.length) (endOf p gs) ∧
        FilesAt m (entsVa + 256 * n) p gs ∧
        ∀ x, x < blkVa p ∨ entsVa ≤ x ∧ x < entsVa + 256 * n → m x = h.mem x)
      (fun _ => False)) h := by
  induction gs generalizing h n p with
  | nil =>
      refine ⟨rfl, h.mem, ?_, hn, hblank, trivial, fun _ _ => rfl⟩
      show h = { h with diskpos := blkVa p }
      rw [← hblank.pos]
  | cons g gs ih =>
      refine (wp_bind _ _ _).mpr (wp_mono (writefile_wp hblank (hshort g List.mem_cons_self)) ?_
        (fun _ => False.elim) (fun _ _ => trivial))
      rintro _ _ ⟨rfl, m, rfl, hcount, hblank', hfile, hframe⟩
      refine wp_mono (ih hblank' (fun g hg => hshort g (List.mem_cons_of_mem _ hg)) hcount) ?_
        (fun _ => False.elim) (fun _ _ => trivial)
      rintro _ _ ⟨rfl, m', rfl, hcount', hblank'', hfiles, hframe'⟩
      have hlen : n + (g :: gs).length = n + 1 + gs.length := by
        rw [List.length_cons]
        omega
      have hend : endOf p (g :: gs) = endOf (p + g.span) gs := rfl
      rw [show entsVa + 256 * (n + 1) = entsVa + 256 * n + 256 by omega] at hfiles
      rw [hlen, hend]
      refine ⟨rfl, m', rfl, hcount', hblank'', ⟨hfile.congr (fun x hle hlt => ?_)
        (fun x hle hlt => hframe' x (Or.inl hlt)), hfiles⟩, fun x hx => ?_⟩
      · rw [Nat.add_assoc, ← Nat.mul_succ] at hlt
        exact hframe' x (Or.inr ⟨Nat.le_trans (Nat.le_add_right _ _) hle, hlt⟩)
      · have hmono := blkVa_mono (a := p) (b := p + g.span) (by omega)
        rw [hframe' x (by omega)]
        exact hframe x hx

end Files

/-! ## The super block, the bitmap and the directory -/

/-- The super block and the bitmap as `opendisk` leaves them. -/
structure Opened (h : Host) : Prop where
  super : h.super = superVa
  bitmap : h.bitmap = blkVa 2
  magic : word h.mem superVa = fsMagic
  blocks : word h.mem snblocksVa = h.nblocks
  type : word h.mem (fTypeVa rootVa) = ftypeDir
  slots : ∀ x, rootVa + 136 ≤ x → x < rootVa + 180 → h.mem x = 0#8
  bits : ∀ x, blkVa 2 ≤ x → x < blkVa 3 → h.mem x = 0xFF#8

section Disk

variable {h : Host} {p n : Nat}

theorem fill_of_apart {v : Bytes.Memory} {va x : Nat} {c : U8} (hx : x < va ∨ va + n ≤ x) :
    fill v va n c x = v x := if_neg (by omega)

theorem fill_self {v : Bytes.Memory} {va x : Nat} {c : U8} (hle : va ≤ x) (hlt : x < va + n) :
    fill v va n c x = c := if_pos ⟨hle, hlt⟩

/-- The memory when the disk is open. -/
def openedMem (v : Bytes.Memory) (nblocks : U32) : Bytes.Memory :=
  fill (setBytes (setWord (setWord (setWord (fill v diskmap (nblocks.toNat * blksize) 0#8)
    (blkVa 1) fsMagic) (blkVa 1 + 4) nblocks) (fTypeVa (blkVa 1 + 8)) ftypeDir)
    (blkVa 1 + 8) ([slash] ++ [0#8])) (blkVa 2) 4096 0xFF#8

theorem opendisk_wp (hlo : 2 ≤ h.nblocks.toNat) (hhi : h.nblocks.toNat ≤ 1024) :
    wp opendisk (Partial (fun _ h' => 3 < h.nblocks.toNat ∧
      h' = ⟨openedMem h.mem h.nblocks, h.nblocks, blkVa 3, blkVa 1, blkVa 2⟩)
      (fun _ => False)) h := by
  have hbits : (h.nblocks + 32768#32 - 1#32) / 32768#32 = 1#32 := by
    have hsum : (h.nblocks + 32768#32 - 1#32).toNat = h.nblocks.toNat + 32767 := by
      rw [BitVec.toNat_sub, BitVec.toNat_add]
      simp only [BitVec.toNat_ofNat]
      omega
    apply BitVec.eq_of_toNat_eq
    rw [BitVec.toNat_udiv, hsum]
    show (h.nblocks.toNat + 32767) / 32768 = 1
    omega
  have hone : blocksOf (4096#32 : U32).toNat = 1 := by decide
  have hone' : blocksOf (1#32 * 4096#32 : U32).toNat = 1 := by decide
  have hfull : (1#32 * 4096#32 : U32).toNat = 4096 := by decide
  unfold opendisk
  rw [wp_get_bind, hbits]
  refine wp_modify_bind.mpr (wp_modify_bind.mpr ?_)
  dsimp only
  refine (wp_bind _ _ _).mpr (wp_mono (alloc_wp (p := 0) rfl (by decide) (by decide)) ?_
    (fun _ => False.elim) (fun _ _ => trivial))
  rintro _ _ ⟨rfl, rfl, -⟩
  rw [hone]
  dsimp only
  refine (wp_bind _ _ _).mpr (wp_mono (alloc_wp (p := 1) rfl (by decide) (by decide)) ?_
    (fun _ => False.elim) (fun _ _ => trivial))
  rintro _ _ ⟨rfl, rfl, -⟩
  rw [hone]
  refine wp_modify_bind.mpr (wp_modify_bind.mpr (wp_modify_bind.mpr (wp_modify_bind.mpr
    (wp_modify_bind.mpr ?_))))
  dsimp only
  refine (wp_bind _ _ _).mpr (wp_mono (alloc_wp (p := 2) rfl (by decide) (by decide)) ?_
    (fun _ => False.elim) (fun _ _ => trivial))
  rintro _ _ ⟨rfl, rfl, hroom⟩
  rw [hone'] at hroom ⊢
  rw [hfull]
  exact ⟨hroom, rfl⟩

theorem openedMem_zero {v : Bytes.Memory} {nblocks : U32} {x : Nat}
    (hin : blkVa 0 ≤ x ∧ x < blkVa nblocks.toNat)
    (hx : rootVa + 136 ≤ x ∧ x < blkVa 2 ∨ blkVa 3 ≤ x) : openedMem v nblocks x = 0#8 := by
  unfold openedMem blkVa fTypeVa diskmap blksize at *
  unfold rootVa superVa diskmap blksize at hx
  rw [fill_of_apart (by omega), setBytes_of_apart (by simp; omega), setWord_of_apart (by omega),
    setWord_of_apart (by omega), setWord_of_apart (by omega)]
  exact fill_self (by omega) (by omega)

theorem opened_openedMem {v : Bytes.Memory} {nblocks : U32} (hroom : 3 < nblocks.toNat) :
    Opened ⟨openedMem v nblocks, nblocks, blkVa 3, blkVa 1, blkVa 2⟩ where
  super := rfl
  bitmap := rfl
  magic := by
    show word (openedMem v nblocks) (blkVa 1) = fsMagic
    unfold openedMem
    refine (word_congr (fun x hle hlt => ?_)).trans (word_setWord_self
      (v := fill v diskmap (nblocks.toNat * blksize) 0#8) (a := blkVa 1))
    unfold blkVa diskmap blksize at hle hlt
    unfold blkVa fTypeVa diskmap blksize
    rw [fill_of_apart (by omega), setBytes_of_apart (by omega), setWord_of_apart (by omega),
      setWord_of_apart (by omega)]
  blocks := by
    show word (openedMem v nblocks) (blkVa 1 + 4) = nblocks
    unfold openedMem
    refine (word_congr (fun x hle hlt => ?_)).trans (word_setWord_self
      (v := setWord (fill v diskmap (nblocks.toNat * blksize) 0#8) (blkVa 1) fsMagic)
      (a := blkVa 1 + 4))
    unfold blkVa diskmap blksize at hle hlt
    unfold blkVa fTypeVa diskmap blksize
    rw [fill_of_apart (by omega), setBytes_of_apart (by omega), setWord_of_apart (by omega)]
  type := by
    show word (openedMem v nblocks) (fTypeVa (blkVa 1 + 8)) = ftypeDir
    unfold openedMem
    refine (word_congr (fun x hle hlt => ?_)).trans (word_setWord_self
      (v := setWord (setWord (fill v diskmap (nblocks.toNat * blksize) 0#8) (blkVa 1) fsMagic)
        (blkVa 1 + 4) nblocks) (a := fTypeVa (blkVa 1 + 8)))
    unfold fTypeVa blkVa diskmap blksize at hle hlt
    unfold blkVa fTypeVa diskmap blksize
    rw [fill_of_apart (by omega), setBytes_of_apart (by simp; omega)]
  slots := fun x hle hlt => by
    unfold rootVa superVa diskmap blksize at hle hlt
    refine openedMem_zero ⟨?_, ?_⟩ (Or.inl ⟨?_, ?_⟩)
    all_goals
      simp only [rootVa, superVa, blkVa, diskmap, blksize]
      omega
  bits := fun x hle hlt => fill_self hle hlt

/-- What is after the bitmap does not matter. -/
theorem Opened.congr {h' : Host} (hopen : Opened h) (hnblocks : h'.nblocks = h.nblocks)
    (hsuper : h'.super = h.super) (hbitmap : h'.bitmap = h.bitmap)
    (hmem : ∀ x, x < blkVa 3 → h'.mem x = h.mem x) : Opened h' := by
  have hword : ∀ a, a + 4 ≤ blkVa 3 → word h'.mem a = word h.mem a := fun a ha =>
    word_congr (fun x _ hlt => hmem x (by omega))
  exact {
    super := hsuper.trans hopen.super
    bitmap := hbitmap.trans hopen.bitmap
    magic := (hword _ (by decide)).trans hopen.magic
    blocks := (hword _ (by decide)).trans (hopen.blocks.trans hnblocks.symm)
    type := (hword _ (by decide)).trans hopen.type
    slots := fun x hle hlt => by
      have hlow : rootVa + 180 ≤ blkVa 3 := by decide
      exact (hmem x (by omega)).trans (hopen.slots x hle hlt)
    bits := fun x hle hlt => (hmem x hlt).trans (hopen.bits x hle hlt) }

theorem dirSpan_le (hn : n ≤ maxDirEnts) : blocksOf (n * 256) ≤ dirSpan n ∧
    dirSpan n ≤ blocksOf (n * 256) + 1 ∧ dirSpan n ≤ 8 ∧ n ≤ dirSpan n * blkfiles := by
  unfold maxDirEnts at hn
  unfold dirSpan blocksOf blkfiles
  omega

/-- `finishdir` copies the records to the disk; without files the directory has a block
that was not allocated. -/
theorem finishdir_wp {gs : List HostFile} (hopen : Opened h) (hn : gs.length = n)
    (hcount : n ≤ maxDirEnts) (hp : endOf 3 gs = p) (hblank : Blank h n p)
    (hfiles : FilesAt h.mem entsVa 3 gs) :
    wp (finishdir ⟨rootVa, entsVa, n⟩) (Partial (fun _ h' => ∃ m,
      h' = { h with mem := m, diskpos := blkVa (p + blocksOf (n * 256)) } ∧
      p + blocksOf (n * 256) < h.nblocks.toNat ∧
      word m (fSizeVa rootVa) = BitVec.ofNat 32 (dirSpan n * 4096) ∧
      Extent m rootVa p (dirSpan n) ∧ FilesAt m (blkVa p) 3 gs ∧
      (∀ k, n ≤ k → k < dirSpan n * blkfiles → m (blkVa p + 256 * k) = 0#8) ∧
      ∀ x, x < blkVa 3 → x < rootVa + 128 ∨ rootVa + 132 ≤ x ∧ x < rootVa + 136 ∨
        rootVa + 180 ≤ x → m x = h.mem x) (fun _ => False)) h := by
  have hn' : n ≤ 128 := hcount
  have hspan := dirSpan_le hcount
  have hsize : (BitVec.ofNat 32 (n * 256)).toNat = n * 256 := by
    rw [BitVec.toNat_ofNat]
    omega
  have hround : roundupInt (BitVec.ofNat 32 (n * 256)) = BitVec.ofNat 32 (dirSpan n * 4096) := by
    apply BitVec.eq_of_toNat_eq
    rw [roundupInt_toNat (by omega), hsize, BitVec.toNat_ofNat]
    show dirSpan n * 4096 = _
    omega
  have hlen : (BitVec.ofNat 32 (dirSpan n * 4096)).toNat = dirSpan n * 4096 := by
    rw [BitVec.toNat_ofNat]
    omega
  have hlow : blkVa 3 ≤ blkVa p := blkVa_mono (hp ▸ endOf_ge)
  have hroom := hblank.room
  have hsmall := hblank.small
  have hents := blkVa_le_entsVa hsmall
  unfold finishdir
  dsimp only
  rw [hround, hsize]
  refine (wp_bind _ _ _).mpr (wp_mono (alloc_wp hblank.pos (by omega) (by omega)) ?_
    (fun _ => False.elim) (fun _ _ => trivial))
  rintro _ _ ⟨rfl, rfl, hroom'⟩
  rw [hsize] at hroom' ⊢
  have hnext : blkVa (p + blocksOf (n * 256)) = blkVa p + blocksOf (n * 256) * 4096 := blkVa_add
  have hlast := blkVa_mono (Nat.le_of_lt hroom')
  have hfit := blocksOf_le (n := n * 256)
  have hroot : rootVa + 256 ≤ blkVa 3 := by decide
  let m₁ := move h.mem (blkVa p) entsVa (n * 256)
  have hfar : ∀ x, x < blkVa p ∨ blkVa p + n * 256 ≤ x → m₁ x = h.mem x := fun x hx =>
    move_of_apart hx
  refine wp_modify_bind.mpr ?_
  dsimp only
  rw [blockof_blkVa]
  refine wp_mono (finishfile_wp
    (h := { h with mem := m₁, diskpos := blkVa (p + blocksOf (n * 256)) })
    (p := p + blocksOf (n * 256)) (n := dirSpan n) ?_ ?_ rfl (by omega) ?_ ?_ ?_ (Or.inl ?_)) ?_
    (fun _ => False.elim) (fun _ _ => trivial)
  · rw [hlen]
    unfold blocksOf
    omega
  · rw [hlen]
    have hmax : maxfilesize = 4235264 := rfl
    omega
  · unfold ndirect
    omega
  · intro x hle hlt
    show m₁ x = 0#8
    rw [hfar x (by omega)]
    exact hopen.slots x hle hlt
  · intro x hle hlt
    replace hlt : x < blkVa h.nblocks.toNat := hlt
    show m₁ x = 0#8
    rw [hfar x (by omega)]
    exact hblank.blocks x (by omega) hlt
  · omega
  · rintro _ _ ⟨m, rfl, -, hsize', hextent, hframe⟩
    have hnone : ¬ ndirect ≤ dirSpan n := by
      unfold ndirect
      omega
    rw [if_neg hnone] at hframe ⊢
    replace hframe : ∀ x, x < rootVa + 128 ∨ rootVa + 132 ≤ x ∧ x < rootVa + 136 ∨
        rootVa + 180 ≤ x → m x = m₁ x := fun x hx => hframe x hx (Nat.lt_or_ge _ _)
    refine ⟨m, rfl, hroom', hsize', hextent, hfiles.move (fun x hx => ?_) (fun x hle hlt => ?_),
      fun k hle hlt => ?_, fun x hx hx' => ?_⟩
    · rw [hframe _ (by omega)]
      show move h.mem (blkVa p) entsVa (n * 256) (blkVa p + x) = h.mem (entsVa + x)
      unfold move
      rw [if_pos (by omega), Nat.add_sub_cancel_left]
    · rw [hp] at hlt
      rw [hframe x (by omega)]
      exact hfar x (Or.inl hlt)
    · rw [hframe _ (by omega), hfar _ (by omega)]
      refine hblank.blocks _ (by omega) ?_
      have hdir : blkVa (p + dirSpan n) = blkVa p + dirSpan n * 4096 := blkVa_add
      have hdir' := blkVa_mono (a := p + dirSpan n) (b := h.nblocks.toNat) (by omega)
      unfold blkfiles at hlt
      omega
    · rw [hframe x hx']
      exact hfar x (by omega)

/-- `finishdisk` marks the blocks in use that were allocated. -/
theorem finishdisk_wp (hbitmap : h.bitmap = blkVa 2)
    (hones : ∀ x, blkVa 2 ≤ x → x < blkVa 3 → h.mem x = 0xFF#8) (hpos : h.diskpos = blkVa p)
    (hp : p ≤ 1024) :
    wp finishdisk (Partial (fun _ h' => ∃ m, h' = { h with mem := m } ∧
      (∀ b, b < 1024 → (word m (bitmapVa b)).getLsbD (b % 32) = decide (p ≤ b)) ∧
      ∀ x, x < blkVa 2 ∨ blkVa 3 ≤ x → m x = h.mem x) (fun _ => False)) h := by
  have hblocks : (blockof h.diskpos).toNat = p := by
    rw [hpos, blockof_blkVa, BitVec.toNat_ofNat]
    omega
  obtain ⟨mem, nblocks, diskpos, super, bitmap⟩ := h
  obtain rfl : bitmap = blkVa 2 := hbitmap
  unfold finishdisk
  rw [wp_get_bind, hblocks]
  refine wp_forRange (fun j h' => ∃ m, h' = ⟨m, nblocks, diskpos, super, blkVa 2⟩ ∧
    (∀ b, b < 1024 → (word m (bitmapVa b)).getLsbD (b % 32) = decide (j ≤ b)) ∧
    ∀ x, x < blkVa 2 ∨ blkVa 3 ≤ x → m x = mem x) 0 p ?_ ?_ ?_
  · rintro j _ - hj ⟨m, rfl, hbits, hframe⟩
    refine ⟨_, rfl, fun b hb => ?_, fun x hx => ?_⟩
    · have hclear := bit_clear (v := m) (i := j) (b := b)
      rw [hbits b hb, ← Bool.decide_and] at hclear
      refine hclear.trans (decide_eq_decide.mpr ?_)
      omega
    · have hblock : blkVa 3 = blkVa 2 + 4096 := rfl
      refine Eq.trans ?_ (hframe x hx)
      refine setWord_of_apart (a := blkVa 2 + 4 * (j / 32)) ?_
      omega
  · rintro _ ⟨m, rfl, hbits, hframe⟩
    rw [Nat.zero_add] at hbits
    exact ⟨m, rfl, hbits, hframe⟩
  · refine ⟨mem, rfl, fun b hb => ?_, fun _ _ => rfl⟩
    have hword : word mem (bitmapVa b) = BitVec.allOnes 32 := by
      have hlast : bitmapVa b + 4 ≤ blkVa 3 := by
        unfold bitmapVa blkVa blksize
        omega
      have hword : ∀ a, word (fun _ => 0xFF#8) a = BitVec.allOnes 32 := fun a => by
        unfold word
        beta_reduce
        decide
      refine (word_congr (fun x hle hlt => ?_)).trans (hword (bitmapVa b))
      exact hones x (Nat.le_trans (Nat.le_add_right _ _) hle) (Nat.lt_of_lt_of_le hlt hlast)
    have hbit : b % 32 < 32 := Nat.mod_lt b (by decide)
    rw [hword, BitVec.getLsbD_allOnes]
    simp only [hbit, Nat.zero_le]

end Disk

/-! ## The whole run -/

section Run

variable {h : Host} {files : List HostFile} {nblocks : U32}

/-- The first block that `fsformat` does not allocate. -/
def lastBlock (files : List HostFile) : Nat := endOf 3 files + blocksOf (files.length * 256)

/-- A run of the formatter that does not panic leaves an image. -/
theorem main_wp (hshort : ∀ g ∈ files, g.name.length < maxnamelen) :
    wp (main nblocks files) (Partial (fun _ h' => h'.nblocks = nblocks ∧
      h'.diskpos = blkVa (lastBlock files) ∧ Image h'.mem nblocks.toNat files)
      (fun _ => True)) h := by
  unfold main
  refine (wp_bind _ _ _).mpr (wp_when (fun _ => trivial) (fun hsize => ?_))
  have hlo : 2 ≤ nblocks.toNat := by
    have hle := BitVec.not_lt.mp (fun h => hsize (Or.inl h))
    exact BitVec.le_def.mp hle
  have hhi : nblocks.toNat ≤ 1024 := by
    have hle := BitVec.not_lt.mp (fun h => hsize (Or.inr h))
    exact BitVec.le_def.mp hle
  refine wp_modify_bind.mpr ((wp_bind _ _ _).mpr (wp_mono (opendisk_wp hlo hhi) ?_
    (fun _ => False.elim) (fun _ _ => trivial)))
  rintro _ _ ⟨hroom, rfl⟩
  replace hroom : 3 < nblocks.toNat := hroom
  let m₀ := openedMem h.mem nblocks
  have hents := blkVa_le_entsVa hhi
  -- the directory in the memory of `malloc` is blank
  let h₁ : Host := ⟨fill m₀ entsVa (maxDirEnts * 256) 0#8, nblocks, blkVa 3, blkVa 1, blkVa 2⟩
  have hfar : ∀ x, x < entsVa → h₁.mem x = m₀ x := fun x hx => fill_of_apart (Or.inl hx)
  have hthree : blkVa 3 ≤ blkVa nblocks.toNat := blkVa_mono (Nat.le_of_lt hroom)
  have hopen : Opened h₁ := (opened_openedMem hroom).congr rfl rfl rfl
    (fun x hx => hfar x (by omega))
  have hblank : Blank h₁ 0 3 := {
    pos := rfl
    room := hroom
    small := hhi
    ents := fun x hle hlt => fill_self hle hlt
    blocks := fun x hle hlt => by
      replace hlt : x < blkVa nblocks.toNat := hlt
      refine (hfar x (by omega)).trans (openedMem_zero ⟨?_, hlt⟩ (Or.inr hle))
      exact Nat.le_trans (blkVa_mono (by decide)) hle }
  refine wp_get_bind.mpr (wp_ret_bind (t := h₁) (a := ⟨rootVa, entsVa, 0⟩) rfl ?_)
  refine (wp_bind _ _ _).mpr (wp_mono (writefiles_wp hblank hshort (Nat.zero_le _)) ?_
    (fun _ => False.elim) (fun _ _ => trivial))
  rintro _ _ ⟨rfl, m₂, rfl, hcount, hblank₂, hfiles, hframe₂⟩
  rw [Nat.zero_add] at hcount hblank₂ ⊢
  have hopen₂ : Opened { h₁ with mem := m₂, diskpos := blkVa (endOf 3 files) } :=
    hopen.congr rfl rfl rfl (fun x hx => hframe₂ x (Or.inl hx))
  refine (wp_bind _ _ _).mpr (wp_mono (finishdir_wp hopen₂ rfl hcount rfl hblank₂ hfiles) ?_
    (fun _ => False.elim) (fun _ _ => trivial))
  rintro _ _ ⟨m₃, rfl, hroom₃, hsize₃, hextent, hfiles₃, hrest, hframe₃⟩
  replace hroom₃ : lastBlock files < nblocks.toNat := hroom₃
  have hroot : rootVa + 256 ≤ blkVa 2 ∧ blkVa 2 ≤ blkVa 3 := by decide
  have hkeep : ∀ x, x < blkVa 3 → x < rootVa + 128 ∨ rootVa + 132 ≤ x ∧ x < rootVa + 136 ∨
      rootVa + 180 ≤ x → m₃ x = m₂ x := hframe₃
  refine wp_mono (finishdisk_wp (p := lastBlock files) rfl (fun x hle hlt => ?_) rfl (by omega)) ?_
    (fun _ => False.elim) (fun _ _ => trivial)
  · show m₃ x = 0xFF#8
    rw [hkeep x hlt (by omega)]
    exact hopen₂.bits x hle hlt
  rintro _ _ ⟨m₄, rfl, hbits, hframe₄⟩
  replace hframe₄ : ∀ x, x < blkVa 2 ∨ blkVa 3 ≤ x → m₄ x = m₃ x := hframe₄
  have hsuper : ∀ a, a + 4 ≤ rootVa + 128 ∨ rootVa + 132 ≤ a ∧ a + 4 ≤ rootVa + 136 →
      word m₄ a = word m₂ a := fun a ha => word_congr (fun x hle hlt => by
    rw [hframe₄ x (by omega)]
    exact hkeep x (by omega) (by omega))
  have hblocks : diskBlocks m₄ = nblocks.toNat := by
    unfold diskBlocks
    rw [hsuper _ (by decide), hopen₂.blocks]
  have hdir : blkVa 3 ≤ blkVa (endOf 3 files) := blkVa_mono endOf_ge
  refine ⟨rfl, rfl, {
    magic := (hsuper _ (by decide)).trans hopen₂.magic
    blocks := hblocks
    small := hhi
    type := (hsuper _ (by decide)).trans hopen₂.type
    size := ?_
    extent := hextent.move (fun x hx => hframe₄ _ (by omega))
      (fun x hle hlt => hframe₄ x (by omega))
    records := hfiles₃.move (fun x hx => hframe₄ _ (by omega))
      (fun x hle hlt => hframe₄ x (Or.inr hle))
    count := hcount
    rest := fun k hle hlt => (hframe₄ _ (by omega)).trans (hrest k hle hlt)
    room := hroom₃
    free := fun b hb => ?_ }⟩
  · refine (word_congr (fun x hle hlt => hframe₄ x ?_)).trans hsize₃
    unfold fSizeVa at hlt
    omega
  · unfold Free
    rw [hbits b (by omega)]
    show b < diskBlocks m₄ ∧ decide (lastBlock files ≤ b) = true ↔ lastBlock files ≤ b
    rw [hblocks]
    simp [hb]

end Run

end Format

end Jos

import Jos.BlockPages

/-!
# The block cache is coherent

Of each byte it is recorded what was stored there last since its block was unmapped.
A block that is mapped holds on its page what was stored, and the disk's bytes where
nothing was, and if the page is not dirty, just the disk's bytes.  Faults, flushes and
the remappings that clear the dirty bit keep this, in any order.
-/

namespace Jos.Bc

open Programs Bytes User

/-- The last byte stored at each block and offset since the block was unmapped. -/
abbrev Stored : Type := Nat → Nat → Option U8

/-- What the program sees of a block. -/
def contents (stored : Stored) (disk : Nat → Bytes.Memory) (b : Nat) : Bytes.Memory :=
  fun o => (stored b o).getD (disk b o)

theorem contents_unstored {stored : Stored} {disk : Nat → Bytes.Memory} {b : Nat}
    (h : stored b = fun _ => none) : contents stored disk b = disk b := by
  funext o
  simp [contents, h]

/-! ## Entries -/

theorem hasFlag_and {a b f : U32} (h : HasFlag (a &&& b) f) : HasFlag a f := by
  intro hzero
  apply h
  rw [BitVec.and_assoc, BitVec.and_comm b f, ← BitVec.and_assoc, hzero, BitVec.zero_and]

/-- The same pages are mapped, and what was writable still is. -/
def SamePages (t t' : PageTable) : Prop :=
  ∀ v, Option.Rel (fun w w' => w'.page = w.page ∧ (HasFlag w.perm pteW → HasFlag w'.perm pteW))
    (t.entry v) (t'.entry v)

section Entries

variable {t t' t'' : PageTable} {v v' : Nat} {w w' : UserPte} {f : U32}

theorem SamePages.mapped (h : SamePages t t') (hv : t.entry v = some w) :
    ∃ w', t'.entry v = some w' ∧ w'.page = w.page ∧
      (HasFlag w.perm pteW → HasFlag w'.perm pteW) := by
  have hrel := h v
  rw [hv] at hrel
  cases hv' : t'.entry v with
  | none =>
      rw [hv'] at hrel
      cases hrel
  | some w' =>
      rw [hv'] at hrel
      cases hrel with
      | some hpage => exact ⟨w', rfl, hpage⟩

theorem SamePages.was (h : SamePages t t') (hv : t'.entry v = some w') :
    ∃ w, t.entry v = some w ∧ w'.page = w.page ∧
      (HasFlag w.perm pteW → HasFlag w'.perm pteW) := by
  cases hold : t.entry v with
  | none =>
      have hrel := h v
      rw [hold, hv] at hrel
      cases hrel
  | some w =>
      obtain ⟨w'', hw'', hsame⟩ := h.mapped hold
      obtain rfl := Option.some.inj (hv.symm.trans hw'')
      exact ⟨w, rfl, hsame⟩

theorem SamePages.was_none (h : SamePages t t') (hv : t'.entry v = none) : t.entry v = none := by
  cases hold : t.entry v with
  | none => rfl
  | some w =>
      obtain ⟨w', hw', -⟩ := h.mapped hold
      rw [hv] at hw'
      cases hw'

theorem SamePages.trans (h : SamePages t t') (h' : SamePages t' t'') : SamePages t t'' := by
  intro v
  cases hv : t.entry v with
  | none =>
      cases hv'' : t''.entry v with
      | none => exact Option.Rel.none
      | some w'' =>
          obtain ⟨w', hw', -⟩ := h'.was hv''
          obtain ⟨w, hw, -⟩ := h.was hw'
          rw [hv] at hw
          cases hw
  | some w =>
      obtain ⟨w', hw', hpage, hwrite⟩ := h.mapped hv
      obtain ⟨w'', hw'', hpage', hwrite'⟩ := h'.mapped hw'
      rw [hw'']
      exact Option.Rel.some ⟨hpage'.trans hpage, fun hw => hwrite' (hwrite hw)⟩

theorem mark_self (h : t.entry v = some w) :
    (mark t v f).entry v = some ⟨w.page, w.perm ||| f⟩ := by
  simp [mark, h]

theorem mark_of_ne (h : v' ≠ v) : (mark t v f).entry v' = t.entry v' :=
  Function.update_of_ne h _ _

theorem samePages_mark : SamePages t (mark t v f) := by
  intro v'
  by_cases hv : v' = v
  · subst hv
    cases hold : t.entry v' with
    | none =>
        rw [show (mark t v' f).entry v' = none by simp [mark, hold]]
        exact Option.Rel.none
    | some w =>
        rw [mark_self hold]
        exact Option.Rel.some ⟨rfl, fun hw => (hasFlag_or _ _ _).mpr (Or.inl hw)⟩
  · rw [mark_of_ne hv]
    cases t.entry v' with
    | none => exact Option.Rel.none
    | some w => exact Option.Rel.some ⟨rfl, id⟩

/-- Marking a page does not make it clean. -/
theorem mark_clean (h : (mark t v f).entry v' = some w') (hclean : ¬ HasFlag w'.perm pteD) :
    ∃ w, t.entry v' = some w ∧ w'.page = w.page ∧ ¬ HasFlag w.perm pteD := by
  obtain ⟨w, hw, hpage, -⟩ := samePages_mark.was h
  refine ⟨w, hw, hpage, fun hdirty => hclean ?_⟩
  by_cases hv : v' = v
  · subst hv
    rw [mark_self hw] at h
    rw [← Option.some.inj h]
    exact (hasFlag_or _ _ _).mpr (Or.inl hdirty)
  · rw [mark_of_ne hv, hw] at h
    rwa [← Option.some.inj h]

theorem samePages_fill {perm : U32} {hw : v < userPages ∧ UserFlags perm}
    (h : t.entry v = some w) (hwrite : HasFlag w.perm pteW → HasFlag perm pteW) :
    SamePages t (t.fill v ⟨w.page, perm⟩ hw) := by
  intro v'
  by_cases hv : v' = v
  · subst hv
    rw [h, PageTable.fill_self]
    exact Option.Rel.some ⟨rfl, hwrite⟩
  · rw [PageTable.fill_of_ne hv]
    cases t.entry v' with
    | none => exact Option.Rel.none
    | some w => exact Option.Rel.some ⟨rfl, id⟩

/-- The entries after a page is entered. -/
theorem fill_cases {hw : v < userPages ∧ UserFlags w.perm}
    (h : (t.fill v w hw).entry v' = some w') :
    v' = v ∧ w' = w ∨ v' ≠ v ∧ t.entry v' = some w' := by
  by_cases hv : v' = v
  · subst hv
    rw [PageTable.fill_self] at h
    exact Or.inl ⟨rfl, (Option.some.inj h).symm⟩
  · rw [PageTable.fill_of_ne hv] at h
    exact Or.inr ⟨hv, h⟩

end Entries

/-! ## Coherence -/

/-- Block `b` is mapped. -/
def InMemory (s : Cache) (b : Nat) : Prop := (s.caller.own.entry (blockPage b)).isSome = true

/-- Blocks have pages of their own, and may be written. -/
structure Pages (s : Cache) : Prop where
  used : ∀ v w, s.caller.own.entry v = some w → w.page < s.caller.fresh
  alone : ∀ b < mapBlocks, ∀ v w w', s.caller.own.entry (blockPage b) = some w →
    s.caller.own.entry v = some w' → w'.page = w.page → v = blockPage b
  writable : ∀ b < mapBlocks, ∀ w, s.caller.own.entry (blockPage b) = some w →
    HasFlag w.perm pteW

/-- The page of block `b` holds what was stored to it and what is on the disk. -/
structure Agrees (stored : Stored) (s : Cache) (b : Nat) : Prop where
  absent : s.caller.own.entry (blockPage b) = none → stored b = fun _ => none
  holds : ∀ w, s.caller.own.entry (blockPage b) = some w →
    s.caller.bytes w.page = contents stored s.disk b
  clean : ∀ w, s.caller.own.entry (blockPage b) = some w → ¬ HasFlag w.perm pteD →
    s.caller.bytes w.page = s.disk b

/-- The cache is coherent. -/
structure Coherent (stored : Stored) (s : Cache) : Prop where
  pages : Pages s
  agrees : ∀ b < mapBlocks, Agrees stored s b

section Coherence

variable {stored : Stored} {s s' : Cache} {b : Nat} {v : Nat} {w : UserPte}

theorem Pages.same (h : Pages s) (hown : SamePages s.caller.own s'.caller.own)
    (hfresh : s.caller.fresh ≤ s'.caller.fresh) : Pages s' where
  used := fun v w' hw' => by
    obtain ⟨w, hw, hpage, -⟩ := hown.was hw'
    exact hpage ▸ Nat.lt_of_lt_of_le (h.used v w hw) hfresh
  alone := fun b hb v w w' hw hw' heq => by
    obtain ⟨u, hu, hpage, -⟩ := hown.was hw
    obtain ⟨u', hu', hpage', -⟩ := hown.was hw'
    exact h.alone b hb v u u' hu hu' (hpage' ▸ hpage ▸ heq)
  writable := fun b hb w' hw' => by
    obtain ⟨w, hw, -, hwrite⟩ := hown.was hw'
    exact hwrite (h.writable b hb w hw)

/-- A page that was never used is entered. -/
theorem Pages.enter (h : Pages s) {perm : U32} (hin : v < userPages ∧ UserFlags perm)
    (hwrite : HasFlag perm pteW)
    (hown : s'.caller.own = s.caller.own.fill v ⟨s.caller.fresh, perm⟩ hin)
    (hfresh : s'.caller.fresh = s.caller.fresh + 1) : Pages s' where
  used := fun v' w hw => by
    rw [hown] at hw
    rw [hfresh]
    rcases fill_cases hw with ⟨-, rfl⟩ | ⟨-, hold⟩
    · exact Nat.lt_succ_self _
    · exact Nat.lt_succ_of_lt (h.used v' w hold)
  alone := fun b hb v' w w' hw hw' heq => by
    rw [hown] at hw hw'
    rcases fill_cases hw with ⟨hv, rfl⟩ | ⟨-, hold⟩
    · rcases fill_cases hw' with ⟨hv', -⟩ | ⟨-, hold'⟩
      · exact hv'.trans hv.symm
      · exact absurd heq (Nat.ne_of_lt (h.used v' w' hold'))
    · rcases fill_cases hw' with ⟨-, rfl⟩ | ⟨-, hold'⟩
      · exact absurd heq.symm (Nat.ne_of_lt (h.used _ w hold))
      · exact h.alone b hb v' w w' hold hold' heq
  writable := fun b hb w hw => by
    rw [hown] at hw
    rcases fill_cases hw with ⟨-, rfl⟩ | ⟨-, hold⟩
    · exact hwrite
    · exact h.writable b hb w hold

/-- The page of another block is another page. -/
theorem Pages.other (h : Pages s) (hb : b < mapBlocks) {b' : Nat} (hne : b' ≠ b) {w' : UserPte}
    (hw : s.caller.own.entry (blockPage b) = some w)
    (hw' : s.caller.own.entry (blockPage b') = some w') : w'.page ≠ w.page := by
  intro heq
  have hpage := h.alone b hb _ w w' hw hw' heq
  unfold blockPage at hpage
  omega

/-- A block is as before if its entry, its page and its bytes on the disk are. -/
theorem Agrees.same (h : Agrees stored s b) {stored' : Stored}
    (hentry : s'.caller.own.entry (blockPage b) = s.caller.own.entry (blockPage b))
    (hbytes : ∀ w, s.caller.own.entry (blockPage b) = some w →
      s'.caller.bytes w.page = s.caller.bytes w.page)
    (hdisk : s'.disk b = s.disk b) (hstored : stored' b = stored b) : Agrees stored' s' b where
  absent := fun hnone => hstored ▸ h.absent (hentry ▸ hnone)
  holds := fun w hw => by
    rw [hentry] at hw
    rw [hbytes w hw, h.holds w hw]
    unfold contents
    rw [hdisk, hstored]
  clean := fun w hw hclean => by
    rw [hentry] at hw
    rw [hbytes w hw, h.clean w hw hclean, hdisk]

/-- The hardware marks a page. -/
theorem Coherent.mark (h : Coherent stored s) (v : Nat) (f : U32) :
    Coherent stored { s with caller := { s.caller with own := mark s.caller.own v f } } where
  pages := h.pages.same samePages_mark (Nat.le_refl _)
  agrees := fun b hb =>
    { absent := fun hnone => (h.agrees b hb).absent (samePages_mark.was_none hnone)
      holds := fun w' hw' => by
        obtain ⟨w, hw, hpage, -⟩ := samePages_mark.was hw'
        exact hpage ▸ (h.agrees b hb).holds w hw
      clean := fun w' hw' hclean => by
        obtain ⟨w, hw, hpage, hold⟩ := mark_clean hw' hclean
        exact hpage ▸ (h.agrees b hb).clean w hw hold }

/-- Block `b` has the same bytes on its page as on the disk now, and these are what the
program sees of it. -/
theorem Coherent.refreshed (hpages : Pages s)
    (hothers : ∀ b' < mapBlocks, b' ≠ b → Agrees stored s b')
    (hb : b < mapBlocks) (hw : s.caller.own.entry (blockPage b) = some w)
    (hown : SamePages s.caller.own s'.caller.own)
    (hentries : ∀ v, v ≠ blockPage b → s'.caller.own.entry v = s.caller.own.entry v)
    (hfresh : s.caller.fresh ≤ s'.caller.fresh)
    (hbytes : ∀ p, p ≠ w.page → s'.caller.bytes p = s.caller.bytes p)
    (hdisk : ∀ b', b' ≠ b → s'.disk b' = s.disk b')
    (hpage : s'.caller.bytes w.page = s'.disk b)
    (hcontents : contents stored s'.disk b = s'.disk b) : Coherent stored s' where
  pages := hpages.same hown hfresh
  agrees := fun b' hb' => by
    by_cases hne : b' = b
    · subst hne
      obtain ⟨w', hw', hsame, -⟩ := hown.mapped hw
      have hall : ∀ u, s'.caller.own.entry (blockPage b') = some u →
          s'.caller.bytes u.page = s'.disk b' := fun u hu => by
        rw [hw'] at hu
        rw [← Option.some.inj hu, hsame, hpage]
      exact
        { absent := fun hnone => by simp [hw'] at hnone
          holds := fun u hu => (hall u hu).trans hcontents.symm
          clean := fun u hu _ => hall u hu }
    · refine (hothers b' hb' hne).same (hentries _ ?_) (fun u hu => hbytes _ ?_) (hdisk b' hne) rfl
      · unfold blockPage
        omega
      · exact hpages.other hb hne hw hu

end Coherence

/-! ## Addresses of blocks -/

section Addresses

variable {a b : U32}

theorem outOfMap_iff : OutOfMap a ↔ a.toNat < 0x10000000 ∨ 0xD0000000 ≤ a.toNat := by
  unfold OutOfMap
  rw [BitVec.lt_def, BitVec.le_def]
  exact Iff.rfl

theorem blockno_toNat (h : ¬ OutOfMap a) :
    (blockno a).toNat = a.toNat / 4096 - 0x10000 := by
  rw [outOfMap_iff] at h
  have hlt := a.isLt
  unfold blockno diskmapVa blksizeVa
  rw [BitVec.toNat_udiv, BitVec.toNat_sub]
  norm_num only [BitVec.toNat_ofNat]
  omega

theorem pgnum_of_in (h : ¬ OutOfMap a) : pgnum a = blockPage (blockno a).toNat := by
  rw [blockno_toNat h, pgnum_eq, blockPage]
  rw [outOfMap_iff] at h
  omega

theorem blockno_lt (h : ¬ OutOfMap a) : (blockno a).toNat < mapBlocks := by
  rw [blockno_toNat h, mapBlocks]
  rw [outOfMap_iff] at h
  omega

theorem pgnum_roundDown : pgnum (roundDown a pgsize) = pgnum a := by
  rw [pgnum_eq, pgnum_eq, roundDown_toNat]
  omega

/-- An address on the page of a block is in the disk map. -/
theorem in_of_pgnum {n : Nat} (hn : n < mapBlocks) (h : pgnum a = blockPage n) :
    ¬ OutOfMap a ∧ (blockno a).toNat = n := by
  rw [pgnum_eq, blockPage] at h
  unfold mapBlocks at hn
  have hin : ¬ OutOfMap a := by
    rw [outOfMap_iff]
    omega
  refine ⟨hin, ?_⟩
  rw [blockno_toNat hin]
  omega

theorem bitmapAddr_toNat (hb : b.toNat < mapBlocks) :
    (bitmapAddr b).toNat = 0x10002000 + 4 * (b.toNat / 32) := by
  unfold mapBlocks at hb
  unfold bitmapAddr
  rw [BitVec.toNat_add, show (diskmapVa + 2#32 * blksizeVa).toNat = 0x10002000 by decide,
    BitVec.toNat_mul, BitVec.toNat_udiv]
  norm_num only [BitVec.toNat_ofNat]
  omega

/-- The block of the bitmap that says whether block `n` is free. -/
def bitmapBlock (n : Nat) : Nat := 2 + n / 32768

theorem pgnum_bitmapAddr (hb : b.toNat < mapBlocks) :
    pgnum (bitmapAddr b) = blockPage (bitmapBlock b.toNat) ∧
      pgoff (bitmapAddr b) = 4 * (b.toNat / 32) % 4096 := by
  rw [pgnum_eq, pgoff_eq, bitmapAddr_toNat hb, blockPage, bitmapBlock]
  omega

theorem bitmapBlock_lt (hb : b.toNat < mapBlocks) : bitmapBlock b.toNat < mapBlocks := by
  unfold bitmapBlock mapBlocks at *
  omega

theorem pgnum_diskaddr {o : Nat} (hb : b.toNat < mapBlocks) (ho : o < 4096) :
    pgnum (diskmapVa + b * blksizeVa + BitVec.ofNat 32 o) = blockPage b.toNat ∧
      pgoff (diskmapVa + b * blksizeVa + BitVec.ofNat 32 o) = o := by
  have hsum : (diskmapVa + b * blksizeVa + BitVec.ofNat 32 o).toNat =
      0x10000000 + b.toNat * 4096 + o := by
    unfold mapBlocks at hb
    unfold diskmapVa blksizeVa
    rw [BitVec.toNat_add, BitVec.toNat_add, BitVec.toNat_mul]
    simp only [BitVec.toNat_ofNat]
    omega
  rw [pgnum_eq, pgoff_eq, hsum, blockPage]
  omega

end Addresses

/-! ## Faults -/

/-- The program returns as `R` says, or it stops and `X` holds. -/
def Tells {α : Type} (X : Prop) (R : α → Cache → Prop) : Post Cache α :=
  ⟨R, fun _ => False, fun _ => X⟩

theorem tells_bind {α β : Type} {X : Prop} {s : Cache} {m : CacheProg α} {f : α → CacheProg β}
    {R : α → Cache → Prop} {R' : β → Cache → Prop} (hm : wp m (Tells X R) s)
    (hf : ∀ a s', R a s' → wp (f a) (Tells X R') s') : wp (m >>= f) (Tells X R') s := by
  rw [wp_bind]
  exact wp_mono hm hf (fun _ hx => hx) (fun _ hx => hx)

/-- What loads leave as it was; a block that is in memory stays there. -/
structure Kept (stored : Stored) (s s' : Cache) : Prop where
  coherent : Coherent stored s'
  disk : s'.disk = s.disk
  super : s'.super = s.super
  bitmap : s'.bitmap = s.bitmap
  written : s'.written = s.written
  memory : s'.caller.memory = s.caller.memory
  mapped : ∀ b, InMemory s b → InMemory s' b

/-- Block `b` exists, as the super block says, which is in memory. -/
def Found (stored : Stored) (s : Cache) (b : Nat) : Prop :=
  s.super = true → InMemory s 1 ∧ b < (word (contents stored s.disk 1) 4).toNat

/-- Block `b` can be read in: it exists, the bitmap says that it is in use, and there is
memory. -/
structure Ready (stored : Stored) (s : Cache) (b : Nat) : Prop where
  found : Found stored s b
  used : s.bitmap = true → s.super = true → InMemory s (bitmapBlock b) ∧
    word (contents stored s.disk (bitmapBlock b)) (4 * (b / 32) % 4096) &&&
      (1#32 <<< (b % 32)) = 0#32
  memory : ∀ k, s.caller.memory k = true

/-- What is said of a way to read words: of what may stop it, only `X` allows for a
fault. -/
def Reads (X : Prop) (stored : Stored) (read : U32 → CacheProg U32) : Prop :=
  ∀ s b a, Coherent stored s → b < mapBlocks → pgnum a = blockPage b → X ∨ InMemory s b →
    wp (read a) (Tells X (fun x s' => Kept stored s s' ∧
      x = word (contents stored s.disk b) (pgoff a))) s

section Faults

variable {stored : Stored} {s s' s'' : Cache} {X : Prop} {b : Nat} {a : U32}
  {read : U32 → CacheProg U32} {w : UserPte}

theorem inMemory_iff : InMemory s b ↔ ∃ w, s.caller.own.entry (blockPage b) = some w :=
  Option.isSome_iff_exists

theorem SamePages.inMemory {c : Caller} (h : SamePages s.caller.own c.own)
    (hb : InMemory s b) : InMemory { s with caller := c } b := by
  obtain ⟨w, hw⟩ := inMemory_iff.mp hb
  obtain ⟨w', hw', -⟩ := h.mapped hw
  exact inMemory_iff.mpr ⟨w', hw'⟩

theorem Kept.refl (h : Coherent stored s) : Kept stored s s :=
  ⟨h, rfl, rfl, rfl, rfl, rfl, fun _ h => h⟩

theorem Kept.trans (h : Kept stored s s') (h' : Kept stored s' s'') : Kept stored s s'' where
  coherent := h'.coherent
  disk := h'.disk.trans h.disk
  super := h'.super.trans h.super
  bitmap := h'.bitmap.trans h.bitmap
  written := h'.written.trans h.written
  memory := h'.memory.trans h.memory
  mapped := fun b hb => h'.mapped b (h.mapped b hb)

theorem Kept.mark (h : Kept stored s s') (v : Nat) (f : U32) : Kept stored s
    { s' with caller := { s'.caller with own := mark s'.caller.own v f } } where
  coherent := h.coherent.mark v f
  disk := h.disk
  super := h.super
  bitmap := h.bitmap
  written := h.written
  memory := h.memory
  mapped := fun b hb => samePages_mark.inMemory (h.mapped b hb)

theorem Found.kept (h : Found stored s b) (hkept : Kept stored s s') :
    Found stored s' b := fun hsuper => by
  obtain ⟨hmapped, hlt⟩ := h (hkept.super ▸ hsuper)
  exact ⟨hkept.mapped 1 hmapped, hkept.disk ▸ hlt⟩

/-- A block's page may be used for any access. -/
theorem mappedFor_block (h : Pages s) (hb : b < mapBlocks) (ha : pgnum a = blockPage b)
    (write : Bool) : mappedFor write s.caller a = s.caller.own.entry (blockPage b) := by
  unfold mappedFor
  rw [ha]
  cases hw : s.caller.own.entry (blockPage b) with
  | none => rfl
  | some w =>
      have hwrite := h.writable b hb w hw
      simp [hwrite]

/-- An access to a block that is in memory. -/
theorem access_mapped {write : Bool} {R : UserPte → Cache → Prop}
    (hkept : Kept stored s s') (hb : b < mapBlocks) (ha : pgnum a = blockPage b)
    (hmapped : InMemory s' b)
    (hR : ∀ w, s'.caller.own.entry (blockPage b) = some w →
      R w { s' with caller := { s'.caller with
        own := mark s'.caller.own (blockPage b) (if write then pteA ||| pteD else pteA) } }) :
    wp (do
      let s ← Prog.get
      match mappedFor write s.caller a with
      | none => Prog.stop
      | some w => do
          touchPage (pgnum a) (if write then pteA ||| pteD else pteA)
          pure w) (Tells X R) s' := by
  obtain ⟨w, hw⟩ := inMemory_iff.mp hmapped
  rw [wp_get_bind, mappedFor_block hkept.coherent.pages hb ha, hw]
  dsimp only
  unfold touchPage
  rw [wp_modify_bind, wp_pure, ha]
  exact hR w hw

/-- An access to a block: if it faults, the handler brings the block in. -/
theorem access_block {handle : CacheProg Unit} {write : Bool} {R : UserPte → Cache → Prop}
    (h : Coherent stored s) (hb : b < mapBlocks) (ha : pgnum a = blockPage b)
    (hhandle : ¬ InMemory s b →
      wp handle (Tells X (fun _ s' => Kept stored s s' ∧ InMemory s' b)) s)
    (hR : ∀ s' w, Kept stored s s' → s'.caller.own.entry (blockPage b) = some w →
      R w { s' with caller := { s'.caller with
        own := mark s'.caller.own (blockPage b) (if write then pteA ||| pteD else pteA) } }) :
    wp (access handle write a) (Tells X R) s := by
  unfold access
  rw [wp_get_bind, wp_bind]
  refine wp_when (fun hfault => ?_) (fun hno => ?_)
  · rw [mappedFor_block h.pages hb ha] at hfault
    refine wp_mono (hhandle (fun hmapped => ?_))
      (fun _ s' hs' => access_mapped hs'.1 hb ha hs'.2 (hR s' · hs'.1))
      (fun _ hx => hx) (fun _ hx => hx)
    obtain ⟨w, hw⟩ := inMemory_iff.mp hmapped
    rw [hfault] at hw
    cases hw
  · rw [mappedFor_block h.pages hb ha] at hno
    exact access_mapped (Kept.refl h) hb ha (Option.isSome_iff_ne_none.mpr hno)
      (hR s · (Kept.refl h))

theorem readWord_block {handle : CacheProg Unit} (h : Coherent stored s) (hb : b < mapBlocks)
    (ha : pgnum a = blockPage b)
    (hhandle : ¬ InMemory s b →
      wp handle (Tells X (fun _ s' => Kept stored s s' ∧ InMemory s' b)) s) :
    wp (readWord handle a) (Tells X (fun x s' => Kept stored s s' ∧
      x = word (contents stored s.disk b) (pgoff a))) s := by
  unfold readWord
  rw [wp_bind]
  refine access_block h hb ha hhandle (fun s' w hkept hw => ?_)
  refine ⟨hkept.mark _ _, ?_⟩
  dsimp only
  rw [(hkept.coherent.agrees b hb).holds w hw, hkept.disk]

/-- Remapping a page onto itself never fails. -/
theorem remap_run {v : Nat} {Q : Post Cache Unit} (ha : pgnum a = v)
    (hw : s.caller.own.entry v = some w)
    (hQ : ∀ k hin, Q.ret () { s with caller := { s.caller with
      asked := k
      own := s.caller.own.fill v ⟨w.page, w.perm &&& pteSyscall⟩ hin } }) :
    wp (remap a) Q s := by
  unfold remap uvptFlags
  rw [wp_get_bind, ha, hw]
  dsimp only
  unfold onCaller
  rw [wp_bind, wp_zoom]
  refine wp_of_returns (sysPageMap_returns rfl hw) ?_
  rintro r c' ⟨k, ⟨-, hno, -⟩ | ⟨rfl, hin, rfl⟩⟩
  · have hflags : UserFlags (w.perm &&& pteSyscall) := by
      have huser := s.caller.own.flags _ w hw
      unfold UserFlags at huser ⊢
      rw [BitVec.and_assoc, show pteSyscall &&& (pteU ||| pteP) = pteU ||| pteP by decide, huser]
    have htable := (hno ⟨s.caller.own.below _ w hw, hflags, hasFlag_and⟩).2
    rw [s.caller.own.tabled _ w hw] at htable
    cases htable
  · change wp (Prog.when ((0 : Int) < 0) Prog.stop) Q _
    exact wp_when (fun hneg => absurd hneg (by decide)) (fun _ => hQ k hin)

/-- The page of a block is marked, and the marks are cleared. -/
theorem touch_remap {β : Type} {f : Unit → CacheProg β} {g : U32} {Q : Post Cache β}
    (hw : s.caller.own.entry (blockPage b) = some w) (ha : pgnum a = blockPage b)
    (hQ : ∀ k hin, wp (f ()) Q { s with caller := { s.caller with
      asked := k
      own := (mark s.caller.own (blockPage b) g).fill (blockPage b)
        ⟨w.page, (w.perm ||| g) &&& pteSyscall⟩ hin } }) :
    wp (touchPage (pgnum a) g) ⟨fun _ t => wp (remap a >>= f) Q t, Q.exit, Q.stop⟩ s := by
  unfold touchPage
  rw [wp_modify]
  dsimp only
  rw [wp_bind, ha]
  exact remap_run ha (mark_self hw) (fun k hin => hQ k hin)

theorem touched_of_ne {t : PageTable} {v v' : Nat} {g perm : U32}
    (hin : v < userPages ∧ UserFlags perm) (hne : v' ≠ v) :
    ((mark t v g).fill v ⟨w.page, perm⟩ hin).entry v' = t.entry v' :=
  (Function.update_of_ne hne _ _).trans (mark_of_ne hne)

theorem samePages_touched {t : PageTable} {v : Nat} {g : U32}
    (hin : v < userPages ∧ UserFlags ((w.perm ||| g) &&& pteSyscall))
    (hw : t.entry v = some w) (hwrite : HasFlag w.perm pteW) :
    SamePages t ((mark t v g).fill v ⟨w.page, (w.perm ||| g) &&& pteSyscall⟩ hin) := by
  refine samePages_mark.trans (samePages_fill (w := ⟨w.page, w.perm ||| g⟩) (mark_self hw)
    (fun _ => ?_))
  unfold HasFlag
  rw [BitVec.and_assoc, show pteSyscall &&& pteW = pteW by decide]
  exact (hasFlag_or _ _ _).mpr (Or.inl hwrite)

end Faults

/-! ## The fault handler -/

/-- The page of block `b` may hold anything; all else is as before. -/
structure Allocated (stored : Stored) (s : Cache) (b : Nat) (s' : Cache) : Prop where
  pages : Pages s'
  others : ∀ b' < mapBlocks, b' ≠ b → Agrees stored s' b'
  disk : s'.disk = s.disk
  super : s'.super = s.super
  bitmap : s'.bitmap = s.bitmap
  written : s'.written = s.written
  memory : s'.caller.memory = s.caller.memory
  mapped : ∀ b', InMemory s b' → InMemory s' b'

section Handler

variable {stored : Stored} {s s' : Cache} {X : Prop} {b : Nat} {a bn : U32}
  {read : U32 → CacheProg U32}

/-- The check that a block exists. -/
theorem check_block (hread : Reads X stored read) (h : Coherent stored s)
    (hok : X ∨ Found stored s bn.toNat) :
    wp (Prog.when (s.super = true) (do
      let nblocks ← read snblocksAddr
      Prog.when (nblocks ≤ bn) Prog.stop)) (Tells X (fun _ s' => Kept stored s s')) s := by
  refine wp_when (fun hsuper => ?_) (fun _ => Kept.refl h)
  refine tells_bind (hread s 1 snblocksAddr h (by decide) (by decide)
    (hok.imp_right (fun hex => (hex hsuper).1))) ?_
  rintro nblocks s' ⟨hkept, hnblocks⟩
  refine wp_when (fun hle => ?_) (fun _ => hkept)
  refine hok.elim id (fun hex => ?_)
  rw [BitVec.le_def, hnblocks] at hle
  exact absurd (hex hsuper).2 (Nat.not_lt.mpr hle)

theorem blockIsFree_block (hread : Reads X stored read) (h : Coherent stored s)
    (hb : bn.toNat < mapBlocks)
    (hok : X ∨ Found stored s bn.toNat ∧ (s.super = true → InMemory s (bitmapBlock bn.toNat) ∧
      word (contents stored s.disk (bitmapBlock bn.toNat)) (4 * (bn.toNat / 32) % 4096) &&&
        (1#32 <<< (bn.toNat % 32)) = 0#32)) :
    wp (blockIsFree read bn) (Tells X (fun free s' => Kept stored s s' ∧
      (free = true → X))) s := by
  unfold blockIsFree
  rw [wp_get_bind]
  refine wp_ite (fun _ => ⟨Kept.refl h, fun hfree => by cases hfree⟩) (fun hsuper => ?_)
  rw [Bool.not_eq_false] at hsuper
  refine tells_bind (hread s 1 snblocksAddr h (by decide) (by decide)
    (hok.imp_right (fun hex => (hex.1 hsuper).1))) ?_
  rintro nblocks s' ⟨hkept, -⟩
  refine wp_ite (fun _ => ⟨hkept, fun hfree => by cases hfree⟩) (fun _ => ?_)
  obtain ⟨hpage, hoff⟩ := pgnum_bitmapAddr hb
  refine tells_bind (hread s' _ _ hkept.coherent (bitmapBlock_lt hb) hpage
    (hok.imp_right (fun hex => hkept.mapped _ (hex.2 hsuper).1))) ?_
  rintro w s'' ⟨hkept', rfl⟩
  refine ⟨hkept.trans hkept', fun hfree => hok.elim id (fun hex => ?_)⟩
  rw [hkept.disk, hoff, BitVec.toNat_umod, show (32#32).toNat = 32 by decide] at hfree
  exact absurd (hex.2 hsuper).2 (of_decide_eq_true hfree)

/-- A page for the block, if there is memory. -/
theorem alloc_block (h : Coherent stored s) (hb : b < mapBlocks)
    (hok : X ∨ ∀ k, s.caller.memory k = true) :
    wp (onCaller (sysPageAlloc .own (blockPage b) (pteW ||| pteU ||| pteP)))
      (Tells X (fun _ s' => Allocated stored s b s' ∧ (X ∨ InMemory s' b))) s := by
  unfold onCaller
  rw [wp_zoom]
  refine wp_of_returns (sysPageAlloc_returns rfl) ?_
  rintro r c' (⟨-, hno, hown, -, hfresh, hmemory, hbytes⟩ | ⟨-, hin, k, rfl⟩)
  · have hx : X := by
      refine hok.elim id (fun hall => ?_)
      obtain ⟨k, hk⟩ := hno ⟨by unfold mapBlocks at hb; unfold blockPage userPages; omega,
        by decide⟩
      rw [hall k] at hk
      cases hk
    have hsame : SamePages s.caller.own c'.own := by
      rw [hown]
      intro v
      cases s.caller.own.entry v with
      | none => exact Option.Rel.none
      | some w => exact Option.Rel.some ⟨rfl, id⟩
    refine ⟨⟨h.pages.same hsame hfresh, fun b' hb' _ => ?_, rfl, rfl, rfl, rfl, hmemory,
      fun b' hb' => ?_⟩, Or.inl hx⟩
    · exact (h.agrees b' hb').same (by rw [hown]) (fun w hw => hbytes _ (h.pages.used _ w hw))
        rfl rfl
    · exact (congrArg (fun t => (PageTable.entry t (blockPage b')).isSome) hown).trans hb'
  · have hother : ∀ b' w, s.caller.own.entry (blockPage b') = some w →
        Function.update s.caller.bytes s.caller.fresh (fun _ => 0#8) w.page =
          s.caller.bytes w.page := fun b' w hw =>
      Function.update_of_ne (Nat.ne_of_lt (h.pages.used _ w hw)) _ _
    have hself : (s.caller.own.fill (blockPage b)
        ⟨s.caller.fresh, pteW ||| pteU ||| pteP⟩ hin).entry (blockPage b) =
          some ⟨s.caller.fresh, pteW ||| pteU ||| pteP⟩ := PageTable.fill_self
    have hfar : ∀ v, v ≠ blockPage b → (s.caller.own.fill (blockPage b)
        ⟨s.caller.fresh, pteW ||| pteU ||| pteP⟩ hin).entry v = s.caller.own.entry v :=
      fun v hv => PageTable.fill_of_ne hv
    have hwrite : HasFlag (pteW ||| pteU ||| pteP) pteW := by decide
    refine ⟨⟨h.pages.enter hin hwrite rfl rfl, fun b' hb' hne => ?_, rfl, rfl, rfl, rfl, rfl,
      fun b' hmapped => ?_⟩, Or.inr (inMemory_iff.mpr ⟨_, hself⟩)⟩
    · have hne' : blockPage b' ≠ blockPage b := by
        unfold blockPage
        omega
      exact (h.agrees b' hb').same (hfar _ hne') (hother b') rfl rfl
    · by_cases hv : blockPage b' = blockPage b
      · exact inMemory_iff.mpr ⟨_, (congrArg (PageTable.entry _) hv).trans hself⟩
      · exact (congrArg Option.isSome (hfar _ hv)).trans hmapped

/-- The block is read from the disk to its page, which is clean then. -/
theorem ideRead_block {β : Type} {f : Unit → CacheProg β} {Q : Post Cache β}
    (h : Allocated stored s b s')
    (hb : b < mapBlocks) (ha : pgnum a = blockPage b) (hstored : stored b = fun _ => none)
    (hok : InMemory s' b ∨ Q.stop s')
    (hQ : ∀ t, Kept stored s t → InMemory t b → wp (f ()) Q t) :
    wp (ideRead b a >>= fun _ => remap a >>= f) Q s' := by
  unfold ideRead
  rw [wp_bind, wp_get_bind, mappedFor_block h.pages hb ha]
  cases hw : s'.caller.own.entry (blockPage b) with
  | none =>
      refine hok.resolve_left (fun hmapped => ?_)
      obtain ⟨w, hw'⟩ := inMemory_iff.mp hmapped
      rw [hw] at hw'
      cases hw'
  | some w =>
      dsimp only
      rw [wp_modify_bind]
      refine touch_remap hw ha (fun k hin => ?_)
      refine hQ _ ⟨?_, h.disk, h.super, h.bitmap, h.written, h.memory, fun b' hb' => ?_⟩ ?_
      · refine Coherent.refreshed h.pages h.others hb hw
          (samePages_touched hin hw (h.pages.writable b hb w hw)) (fun v hv => touched_of_ne hin hv)
          (Nat.le_refl _) (fun p hp => Function.update_of_ne hp _ _) (fun _ _ => rfl)
          (Function.update_self _ _ _) (contents_unstored hstored)
      · exact (samePages_touched hin hw (h.pages.writable b hb w hw)).inMemory (h.mapped b' hb')
      · exact (samePages_touched hin hw (h.pages.writable b hb w hw)).inMemory
          (inMemory_iff.mpr ⟨w, hw⟩)

/-- The handler brings the block of the address in. -/
theorem bcPgfault_block (hread : Reads X stored read) (h : Coherent stored s)
    (hb : b < mapBlocks) (ha : pgnum a = blockPage b) (hnone : ¬ InMemory s b)
    (hok : X ∨ Ready stored s b) :
    wp (bcPgfault read a) (Tells X (fun _ s' => Kept stored s s' ∧ InMemory s' b)) s := by
  obtain ⟨hin, hblockno⟩ := in_of_pgnum hb ha
  have hstored : stored b = fun _ => none :=
    (h.agrees b hb).absent (Option.not_isSome_iff_eq_none.mp hnone)
  unfold bcPgfault
  rw [wp_bind]
  refine wp_when (fun hout => absurd hout hin) (fun _ => ?_)
  dsimp only
  rw [wp_get_bind]
  refine tells_bind (check_block hread h (hblockno.symm ▸ hok.imp_right Ready.found)) ?_
  intro _ s₁ hkept
  rw [pgnum_roundDown, ha]
  refine tells_bind (alloc_block hkept.coherent hb
    (hok.imp_right (fun hready => hkept.memory.symm ▸ hready.memory))) ?_
  rintro _ s₂ ⟨hallocated, hmapped⟩
  rw [hblockno]
  refine ideRead_block hallocated hb (pgnum_roundDown.trans ha) hstored hmapped.symm ?_
  intro s₃ hkept₃ hmapped₃
  have hall := hkept.trans hkept₃
  rw [wp_get_bind]
  refine wp_when (fun hbitmap => ?_) (fun _ => ⟨hall, hmapped₃⟩)
  refine tells_bind (blockIsFree_block hread hall.coherent (hblockno.symm ▸ hb) ?_) ?_
  · refine hok.imp_right (fun hready => hblockno.symm ▸ ⟨hready.found.kept hall, ?_⟩)
    intro hsuper
    obtain ⟨hbits, hfree⟩ := hready.used (hall.bitmap ▸ hbitmap) (hall.super ▸ hsuper)
    exact ⟨hall.mapped _ hbits, hall.disk.symm ▸ hfree⟩
  · rintro free s₄ ⟨hkept₄, hfree⟩
    exact wp_when hfree (fun _ => ⟨hall.trans hkept₄, hkept₄.mapped b hmapped₃⟩)

end Handler

/-! ## Loads and stores -/

section Accesses

variable {stored : Stored} {s s' : Cache} {X : Prop} {b : Nat} {a bn : U32} {n : Nat}

/-- Words are read as the program sees them, however far faults nest. -/
theorem loadWord_reads (n : Nat) : Reads X stored (loadWord n) := by
  induction n generalizing X with
  | zero =>
      intro s b a h hb ha hok
      exact readWord_block h hb ha (fun hnone => hok.resolve_right hnone)
  | succ n ih =>
      intro s b a h hb ha hok
      exact readWord_block h hb ha (fun hnone =>
        bcPgfault_block ih h hb ha hnone (Or.inl (hok.resolve_right hnone)))

/-- Block `b` can be used: it is in memory or can be read in. -/
def Usable (stored : Stored) (s : Cache) (b : Nat) : Prop := InMemory s b ∨ Ready stored s b

theorem Usable.kept (h : Usable stored s b) (hkept : Kept stored s s') :
    Usable stored s' b :=
  h.imp (hkept.mapped b) (fun hready =>
    { found := hready.found.kept hkept
      used := fun hbitmap hsuper => by
        obtain ⟨hbits, hfree⟩ := hready.used (hkept.bitmap ▸ hbitmap) (hkept.super ▸ hsuper)
        exact ⟨hkept.mapped _ hbits, hkept.disk.symm ▸ hfree⟩
      memory := fun k => hkept.memory.symm ▸ hready.memory k })

theorem fault_block (h : Coherent stored s) (hb : b < mapBlocks) (ha : pgnum a = blockPage b)
    (hok : X ∨ Usable stored s b) (hnone : ¬ InMemory s b) :
    wp (bcPgfault (loadWord n) a) (Tells X (fun _ s' => Kept stored s s' ∧ InMemory s' b)) s :=
  bcPgfault_block (loadWord_reads n) h hb ha hnone
    (hok.imp_right (fun husable => husable.resolve_left hnone))

theorem loadByte_block (h : Coherent stored s) (hb : b < mapBlocks) (ha : pgnum a = blockPage b)
    (hok : X ∨ Usable stored s b) :
    wp (loadByte n a) (Tells X (fun x s' => Kept stored s s' ∧
      x = contents stored s.disk b (pgoff a))) s := by
  unfold loadByte
  rw [wp_bind]
  refine access_block h hb ha (fault_block h hb ha hok) (fun s' w hkept hw => ?_)
  refine ⟨hkept.mark _ _, ?_⟩
  dsimp only
  rw [(hkept.coherent.agrees b hb).holds w hw, hkept.disk]

/-- A byte is recorded as stored. -/
def Stored.put (stored : Stored) (b o : Nat) (x : U8) : Stored :=
  Function.update stored b (Function.update (stored b) o (some x))

/-- A byte is stored to a page that is marked as dirty. -/
theorem Coherent.store (h : Coherent stored s) (hb : b < mapBlocks) {p o : Nat} {perm : U32}
    {x : U8} (hw : s.caller.own.entry (blockPage b) = some ⟨p, perm⟩)
    (hdirty : HasFlag perm pteD) :
    Coherent (stored.put b o x) { s with caller := { s.caller with
      bytes := Function.update s.caller.bytes p
        (Function.update (s.caller.bytes p) o x) } } where
  pages := ⟨h.pages.used, h.pages.alone, h.pages.writable⟩
  agrees := fun b' hb' => by
    by_cases hne : b' = b
    · subst hne
      refine ⟨fun hnone => absurd (hw.symm.trans hnone) (by simp), fun u hu => ?_,
        fun u hu hclean => ?_⟩
      · obtain rfl := Option.some.inj (hw.symm.trans hu)
        have hholds := (h.agrees b' hb').holds _ hw
        funext i
        dsimp only at hholds ⊢
        rw [Function.update_self, hholds]
        unfold contents Stored.put
        rw [Function.update_self]
        by_cases hp : i = o
        · rw [hp, Function.update_self, Function.update_self]
          rfl
        · rw [Function.update_of_ne hp, Function.update_of_ne hp]
      · obtain rfl := Option.some.inj (hw.symm.trans hu)
        exact absurd hdirty hclean
    · exact (h.agrees b' hb').same rfl
        (fun u hu => Function.update_of_ne (h.pages.other hb hne hw hu) _ _) rfl
        (Function.update_of_ne hne _ _)

theorem storeByte_block (h : Coherent stored s) (hb : b < mapBlocks) (ha : pgnum a = blockPage b)
    {x : U8} (hok : X ∨ Usable stored s b) :
    wp (storeByte n a x) (Tells X (fun _ s' => Coherent (stored.put b (pgoff a) x) s')) s := by
  unfold storeByte
  rw [wp_bind]
  refine access_block h hb ha (fault_block h hb ha hok) (fun s' w hkept hw => ?_)
  have hcoherent := hkept.coherent.mark (blockPage b) (pteA ||| pteD)
  have hdirty : HasFlag (w.perm ||| (pteA ||| pteD)) pteD :=
    (hasFlag_or _ _ _).mpr (Or.inr (by decide))
  exact hcoherent.store hb (mark_self hw) hdirty

theorem diskaddr_block (h : Coherent stored s) {bn : U32}
    (hok : X ∨ bn ≠ 0#32 ∧ Found stored s bn.toNat) :
    wp (diskaddr n bn) (Tells X (fun a s' => Kept stored s s' ∧
      a = diskmapVa + bn * blksizeVa)) s := by
  unfold diskaddr
  rw [wp_bind]
  refine wp_when (fun hzero => hok.elim id (fun hex => absurd hzero hex.1)) (fun _ => ?_)
  dsimp only
  rw [wp_get_bind]
  refine tells_bind (check_block (loadWord_reads (n + 1)) h (hok.imp_right And.right)) ?_
  exact fun _ s' hkept => ⟨hkept, rfl⟩

end Accesses

/-! ## Flushing and unmapping -/

/-- Block `b`, with page `w`, is written to the disk and is clean then. -/
structure WrittenBack (b : Nat) (w : UserPte) (s s' : Cache) : Prop where
  written : s'.written = s.written ++ [b]
  disk : s'.disk = Function.update s.disk b (s.caller.bytes w.page)
  bytes : s'.caller.bytes = s.caller.bytes
  entry : ∃ perm, s'.caller.own.entry =
    Function.update s.caller.own.entry (blockPage b) (some ⟨w.page, perm⟩) ∧
      ¬ HasFlag perm pteD ∧ perm &&& pteSyscall = w.perm &&& pteSyscall

/-- What a flush does to block `b`, and does not do to others. -/
def Flushed (b : Nat) (s s' : Cache) : Prop :=
  (∃ w, s.caller.own.entry (blockPage b) = some w ∧ HasFlag w.perm pteD ∧
    WrittenBack b w s s') ∨
  ((∀ w, s.caller.own.entry (blockPage b) = some w → ¬ HasFlag w.perm pteD) ∧ s' = s)

section Flushes

variable {stored : Stored} {s s' : Cache} {b : Nat} {a : U32} {w : UserPte}

theorem vaIsMapped_iff (ha : pgnum a = blockPage b) :
    vaIsMapped s.caller a = true ↔ InMemory s b := by
  unfold vaIsMapped uvptFlags
  rw [ha]
  cases hw : s.caller.own.entry (blockPage b) with
  | none => simp [InMemory, hw]
  | some w =>
      have hpresent : HasFlag w.perm pteP := by
        have huser := s.caller.own.flags _ w hw
        unfold UserFlags at huser
        unfold HasFlag
        rw [show pteP = (pteU ||| pteP) &&& pteP by decide, ← BitVec.and_assoc, huser]
        decide
      simp [InMemory, hw, s.caller.own.tabled _ w hw, hpresent]

theorem vaIsDirty_iff (ha : pgnum a = blockPage b) :
    vaIsDirty s.caller a = true ↔
      ∃ w, s.caller.own.entry (blockPage b) = some w ∧ HasFlag w.perm pteD := by
  unfold vaIsDirty uvptFlags
  rw [ha]
  cases s.caller.own.entry (blockPage b) with
  | none => simp
  | some w => simp

/-- A flush always returns. -/
theorem flushBlock_run {Q : Post Cache Unit} (hin : ¬ OutOfMap a)
    (hb : (blockno a).toNat = b)
    (hclean : (∀ w, s.caller.own.entry (blockPage b) = some w → ¬ HasFlag w.perm pteD) →
      Q.ret () s)
    (hdirty : ∀ w k hin, s.caller.own.entry (blockPage b) = some w → HasFlag w.perm pteD →
      Q.ret () { s with
        disk := Function.update s.disk b (s.caller.bytes w.page)
        written := s.written ++ [b]
        caller := { s.caller with
          asked := k
          own := (mark s.caller.own (blockPage b) pteA).fill (blockPage b)
            ⟨w.page, (w.perm ||| pteA) &&& pteSyscall⟩ hin } }) :
    wp (flushBlock a) Q s := by
  have hpage : pgnum (roundDown a pgsize) = blockPage b :=
    pgnum_roundDown.trans (hb ▸ pgnum_of_in hin)
  unfold flushBlock
  rw [wp_bind]
  refine wp_when (fun hout => absurd hout hin) (fun _ => ?_)
  dsimp only
  rw [wp_get_bind]
  refine wp_when ?_ (fun hno => hclean (fun w hw hflag => hno ?_))
  · rintro ⟨-, hisdirty⟩
    obtain ⟨w, hw, hflag⟩ := (vaIsDirty_iff hpage).mp hisdirty
    unfold ideWrite
    have hmapped : mappedFor false s.caller (roundDown a pgsize) = some w := by
      unfold mappedFor
      rw [hpage, hw]
      rfl
    rw [wp_bind, wp_get_bind, hmapped, hb]
    dsimp only
    rw [wp_modify_bind, ← Prog.bind_pure (remap _)]
    exact touch_remap hw hpage (fun k hin => hdirty w k hin hw hflag)
  · exact ⟨(vaIsMapped_iff hpage).mpr (inMemory_iff.mpr ⟨w, hw⟩),
      (vaIsDirty_iff hpage).mpr ⟨w, hw, hflag⟩⟩

theorem flushBlock_flushed (hin : ¬ OutOfMap a) :
    Returns (flushBlock a) (fun _ s' => Flushed (blockno a).toNat s s') s := by
  refine flushBlock_run hin rfl (fun hclean => Or.inr ⟨hclean, rfl⟩)
    (fun w k hin' hw hdirty => Or.inl ⟨w, hw, hdirty, rfl, rfl, rfl, ?_⟩)
  refine ⟨(w.perm ||| pteA) &&& pteSyscall, ?_, ?_, ?_⟩
  · funext v
    by_cases hv : v = blockPage (blockno a).toNat
    · rw [hv, Function.update_self]
      exact Function.update_self _ _ _
    · rw [Function.update_of_ne hv]
      exact touched_of_ne hin' hv
  · unfold HasFlag
    rw [BitVec.and_assoc, show pteSyscall &&& pteD = 0#32 by decide, BitVec.and_zero]
    exact not_not.mpr rfl
  · rw [BitVec.and_assoc, BitVec.and_self]
    ext i hi
    simp only [BitVec.getElem_and, BitVec.getElem_or]
    have hdisjoint : (pteA[i] && pteSyscall[i]) = false := by
      rw [← BitVec.getElem_and, show pteA &&& pteSyscall = 0#32 by decide, BitVec.getElem_zero]
    cases hA : pteA[i] <;> cases hS : pteSyscall[i] <;> simp_all

/-- A flush keeps what the program sees. -/
theorem flushBlock_coherent (h : Coherent stored s) (hin : ¬ OutOfMap a) :
    Returns (flushBlock a) (fun _ s' => Coherent stored s') s := by
  refine flushBlock_run hin rfl (fun _ => h) (fun w k hin' hw hdirty => ?_)
  have hb := blockno_lt hin
  refine Coherent.refreshed h.pages (fun b' hb' _ => h.agrees b' hb') hb hw
    (samePages_touched hin' hw (h.pages.writable _ hb w hw)) (fun v hv => touched_of_ne hin' hv)
    (Nat.le_refl _) (fun _ _ => rfl) (fun b' hne => Function.update_of_ne hne _ _) ?_ ?_
  · dsimp only
    rw [Function.update_self]
  · funext o
    unfold contents
    dsimp only
    rw [Function.update_self, (h.agrees _ hb).holds w hw]
    unfold contents
    cases stored (blockno a).toNat o <;> rfl

/-- The block is unmapped, and so is everything that was stored to it. -/
theorem unmap_coherent (h : Coherent stored s) (hb : b < mapBlocks) :
    Returns (onCaller (sysPageUnmap (blockPage b)))
      (fun _ s' => Coherent (Function.update stored b (fun _ => none)) s') s := by
  have hin : blockPage b < userPages := by
    unfold mapBlocks at hb
    unfold blockPage userPages
    omega
  have hold : ∀ v w, (s.caller.own.clear (blockPage b)).entry v = some w →
      s.caller.own.entry v = some w := by
    intro v w hw
    by_cases hv : v = blockPage b
    · rw [hv, PageTable.clear_self] at hw
      cases hw
    · rwa [PageTable.clear_of_ne hv] at hw
  unfold onCaller sysPageUnmap
  rw [if_pos hin, Returns, wp_zoom, wp_modify_bind, wp_pure]
  refine
    { pages :=
        { used := fun v w hw => h.pages.used v w (hold v w hw)
          alone := fun b' hb' v w w' hw hw' heq =>
            h.pages.alone b' hb' v w w' (hold _ w hw) (hold v w' hw') heq
          writable := fun b' hb' w hw => h.pages.writable b' hb' w (hold _ w hw) }
      agrees := fun b' hb' => ?_ }
  by_cases hne : b' = b
  · subst hne
    have hnone : ∀ w, (s.caller.own.clear (blockPage b')).entry (blockPage b') ≠ some w :=
      fun w hw => by cases PageTable.clear_self.symm.trans hw
    exact
      { absent := fun _ => Function.update_self _ _ _
        holds := fun w hw => absurd hw (hnone w)
        clean := fun w hw => absurd hw (hnone w) }
  · have hpage : blockPage b' ≠ blockPage b := by
      unfold blockPage
      omega
    exact (h.agrees b' hb').same (PageTable.clear_of_ne hpage) (fun _ _ => rfl) rfl
      (Function.update_of_ne hne _ _)

end Flushes

/-! ## Runs -/

/-- What is stored after an operation. -/
def CacheOp.track (stored : Stored) : CacheOp → Stored
  | .store b o x => stored.put b.toNat o x
  | .unmap b => Function.update stored b (fun _ => none)
  | _ => stored

/-- No block is in memory, and pages that were never used are nowhere. -/
structure Blank (s : Cache) : Prop where
  unmapped : ∀ b < mapBlocks, s.caller.own.entry (blockPage b) = none
  used : ∀ v w, s.caller.own.entry v = some w → w.page < s.caller.fresh

/-- The cache is used, from the start, and this was stored. -/
inductive CacheRun (n : Nat) : Stored → Cache → Prop where
  | start {s : Cache} (h : Blank s) : CacheRun n (fun _ _ => none) s
  | step {stored : Stored} {s s' : Cache} {op : CacheOp} {r : Option U8}
      (h : CacheRun n stored s) (hop : op.Allowed s)
      (hrun : (op.exec n).run s = .ret r s') : CacheRun n (op.track stored) s'

/-- The file system gives out the address of block `b`, and the block can be used. -/
def Accepted (stored : Stored) (s : Cache) (b : U32) : Prop :=
  b ≠ 0#32 ∧ Found stored s b.toNat ∧ Usable stored s b.toNat

section Runs

variable {n : Nat} {stored : Stored} {s s' : Cache} {X : Prop}

theorem load_tells {b : U32} {o : Nat} (h : Coherent stored s)
    (hop : (CacheOp.load b o).Allowed s) (hok : X ∨ Accepted stored s b) :
    wp ((CacheOp.load b o).exec n) (Tells X (fun x s' => Kept stored s s' ∧
      x = some (contents stored s.disk b.toNat o))) s := by
  obtain ⟨hpage, hoff⟩ := pgnum_diskaddr hop.1 hop.2
  refine tells_bind (diskaddr_block h (hok.imp_right (fun hacc => ⟨hacc.1, hacc.2.1⟩))) ?_
  rintro _ s₁ ⟨hkept, rfl⟩
  refine tells_bind (loadByte_block hkept.coherent hop.1 hpage
    (hok.imp_right (fun hacc => hacc.2.2.kept hkept))) ?_
  rintro x s₂ ⟨hkept', rfl⟩
  exact ⟨hkept.trans hkept', by rw [hoff, hkept.disk]⟩

theorem store_tells {b : U32} {o : Nat} {x : U8} (h : Coherent stored s)
    (hop : (CacheOp.store b o x).Allowed s) (hok : X ∨ Accepted stored s b) :
    wp ((CacheOp.store b o x).exec n) (Tells X (fun _ s' =>
      Coherent (stored.put b.toNat o x) s')) s := by
  obtain ⟨hpage, hoff⟩ := pgnum_diskaddr hop.1 hop.2
  refine tells_bind (diskaddr_block h (hok.imp_right (fun hacc => ⟨hacc.1, hacc.2.1⟩))) ?_
  rintro _ s₁ ⟨hkept, rfl⟩
  refine tells_bind (storeByte_block hkept.coherent hop.1 hpage
    (hok.imp_right (fun hacc => hacc.2.2.kept hkept))) ?_
  intro _ s₂ hcoherent
  exact hoff ▸ hcoherent

/-- Every operation keeps the cache coherent. -/
theorem exec_coherent {op : CacheOp} {r : Option U8} (h : Coherent stored s)
    (hop : op.Allowed s) (hrun : (op.exec n).run s = .ret r s') :
    Coherent (op.track stored) s' := by
  cases op with
  | load b o => exact (wp_ret (load_tells h hop (Or.inl trivial)) hrun).1.coherent
  | store b o x => exact wp_ret (store_tells h hop (Or.inl trivial)) hrun
  | flush addr =>
      obtain ⟨_, t, hflush, hpure⟩ := Prog.bind_ret_iff.mp hrun
      cases hpure
      exact wp_ret (flushBlock_coherent h hop) hflush
  | unmap b =>
      obtain ⟨_, t, hunmap, hpure⟩ := Prog.bind_ret_iff.mp hrun
      cases hpure
      exact wp_ret (unmap_coherent h hop.1) hunmap
  | setSuper =>
      cases hrun
      exact ⟨⟨h.pages.used, h.pages.alone, h.pages.writable⟩, fun b hb =>
        (h.agrees b hb).same rfl (fun _ _ => rfl) rfl rfl⟩
  | setBitmap =>
      cases hrun
      exact ⟨⟨h.pages.used, h.pages.alone, h.pages.writable⟩, fun b hb =>
        (h.agrees b hb).same rfl (fun _ _ => rfl) rfl rfl⟩

theorem Blank.coherent (h : Blank s) : Coherent (fun _ _ => none) s where
  pages :=
    { used := h.used
      alone := fun b hb v w w' hw => absurd hw (by simp [h.unmapped b hb])
      writable := fun b hb w hw => absurd hw (by simp [h.unmapped b hb]) }
  agrees := fun b hb =>
    { absent := fun _ => rfl
      holds := fun w hw => absurd hw (by simp [h.unmapped b hb])
      clean := fun w hw => absurd hw (by simp [h.unmapped b hb]) }

theorem CacheRun.coherent (h : CacheRun n stored s) : Coherent stored s := by
  induction h with
  | start h => exact h.coherent
  | step h hop hrun ih => exact exec_coherent ih hop hrun

end Runs

/-- A cache with nothing in it. -/
def blankCache : Cache where
  caller :=
    { own := PageTable.empty
      child := none
      bytes := fun _ _ => 0#8
      fresh := 0
      memory := fun _ => true
      asked := 0 }
  disk := fun b o => BitVec.ofNat 8 (b + o)
  super := false
  bitmap := false
  written := []

/-- A byte of block 5 is stored. -/
def storedCache : Cache := (((CacheOp.store 5#32 7 0xAB#8).exec 0).run blankCache).state

/-- The block is flushed, at an address in its middle. -/
def flushedCache : Cache := (((CacheOp.flush 0x10005123#32).exec 0).run storedCache).state

theorem flushedCache_run :
    CacheRun 0 (Stored.put (fun _ _ => none) 5 7 0xAB#8) flushedCache := by
  have hblank : Blank blankCache := ⟨fun _ _ => rfl, fun _ _ h => by cases h⟩
  have hstore : (CacheOp.store 5#32 7 0xAB#8).Allowed blankCache := ⟨by decide, by decide⟩
  have hstored : ((CacheOp.store 5#32 7 0xAB#8).exec 0).run blankCache =
      .ret none storedCache := rfl
  have hflush : (CacheOp.flush 0x10005123#32).Allowed storedCache :=
    (show ¬ OutOfMap 0x10005123#32 by decide)
  have hflushed : ((CacheOp.flush 0x10005123#32).exec 0).run storedCache =
      .ret none flushedCache := rfl
  exact ((CacheRun.start hblank).step hstore hstored).step hflush hflushed

end Jos.Bc

import Jos.EditFrames
import Jos.WalkPath
import Mathlib.Data.List.Induction

/-!
# Names of files

A path leads from directory to directory by the names in their entries.  Only a new entry
changes where paths lead, on a disk that is in order.

* `leads_inj`: two paths of names from the root never lead to the same file.
* `leads_unique`: and one leads to one file, if names are unique in each directory.
* `Edits.named`, `Edit.named_entry`: which names there are after an edit.
-/

namespace Jos

open Bytes

/-- The file at `g` is called by this name in directory `dir`. -/
structure Named (v : Bytes.Memory) (dir : Nat) (name : List U8) (g : Nat) : Prop where
  entry : Entry v dir g
  string : NameAt v g name
  short : name.length < maxnamelen
  nul : 0#8 ∉ name

/-- No directory calls two files by the same name. -/
def NamesUnique (v : Bytes.Memory) : Prop :=
  ∀ dir name g h, Reach v dir → Named v dir name g → Named v dir name h → g = h

/-- The names lead from file `f` to a file. -/
def Leads (v : Bytes.Memory) (f : Nat) : List (List U8) → Nat → Prop
  | [], h => h = f
  | name :: names, h => ∃ g, Named v f name g ∧ Leads v g names h

/-- Record `g` is in a block of directory `dir`. -/
def InDir (v : Bytes.Memory) (dir g : Nat) : Prop :=
  IsDir v dir ∧ ∃ i b j, i < dirNblocks v dir ∧ (slotOf dir i).Has v b ∧ j < blkfiles ∧
    g = fileVa b j

section Paths

variable {v v' : Bytes.Memory} {dir dir' f g h b j x : Nat} {name name' : List U8}
  {names names' : List (List U8)}

theorem Entry.inDir (h : Entry v dir g) : InDir v dir g := by
  obtain ⟨htype, i, b, j, hi, hb, hj, hg, -⟩ := h
  exact ⟨htype, i, b, j, hi, hb, hj, hg⟩

theorem InDir.record (h : InDir v dir g) (hdir : Reach v dir) :
    ∃ b j, DirBlock v b ∧ j < blkfiles ∧ g = fileVa b j := by
  obtain ⟨htype, i, b, j, hi, hb, hj, rfl⟩ := h
  exact ⟨b, j, .of_has hdir htype hi hb, hj, rfl⟩

theorem fileVa_inj {b' j' : Nat} (hj : j < blkfiles) (hj' : j' < blkfiles)
    (heq : fileVa b j = fileVa b' j') : b = b' ∧ j = j' := by
  unfold fileVa blkVa blksize blkfiles at *
  omega

/-- A record is in one directory only. -/
theorem InDir.unique (howned : Owned v) (h : InDir v dir g) (h' : InDir v dir' g)
    (hdir : Reach v dir) (hdir' : Reach v dir') : dir = dir' := by
  obtain ⟨-, i, b, j, -, hb, hj, rfl⟩ := h
  obtain ⟨-, i', b', j', -, hb', hj', heq⟩ := h'
  obtain ⟨rfl, rfl⟩ := fileVa_inj hj hj' heq
  have hslot := howned.inj (slotOf dir i) (slotOf dir' i') b
    ⟨by rw [slotOf_file]; exact hdir, hb⟩ ⟨by rw [slotOf_file]; exact hdir', hb'⟩
  exact (slotOf_inj hslot).1

theorem InDir.ne_root (howned : Owned v) (h : InDir v dir g) (hdir : Reach v dir) :
    g ≠ rootVa := by
  obtain ⟨b, j, hb, -, rfl⟩ := h.record hdir
  have htwo := (hb.range howned).1
  unfold rootVa superVa
  unfold fileVa blkVa diskmap blksize
  omega

theorem Named.reach (h : Named v dir name g) (hdir : Reach v dir) : Reach v g :=
  hdir.entry_of h.entry

/-! ## Paths -/

theorem Leads.reach (h : Leads v f names g) (hf : Reach v f) : Reach v g := by
  induction names generalizing f with
  | nil =>
      cases h
      exact hf
  | cons name names ih =>
      obtain ⟨k, hk, h⟩ := h
      exact ih h (hk.reach hf)

theorem leads_append : Leads v f (names ++ names') h ↔
    ∃ g, Leads v f names g ∧ Leads v g names' h := by
  induction names generalizing f with
  | nil => simp [Leads]
  | cons name names ih =>
      simp only [List.cons_append, Leads, ih]
      constructor
      · rintro ⟨k, hk, g, hg, hh⟩
        exact ⟨g, ⟨k, hk, hg⟩, hh⟩
      · rintro ⟨g, ⟨k, hk, hg⟩, hh⟩
        exact ⟨k, hk, g, hg, hh⟩

theorem leads_concat : Leads v f (names ++ [name]) h ↔
    ∃ g, Leads v f names g ∧ Named v g name h := by
  rw [leads_append]
  simp [Leads]

/-- The same names lead to the same file. -/
theorem leads_unique (hunique : NamesUnique v) (hf : Reach v f) (hg : Leads v f names g)
    (hh : Leads v f names h) : g = h := by
  induction names generalizing f with
  | nil =>
      cases hg
      cases hh
      rfl
  | cons name names ih =>
      obtain ⟨k, hk, hg⟩ := hg
      obtain ⟨l, hl, hh⟩ := hh
      obtain rfl := hunique f name k l hf hk hl
      exact ih (hk.reach hf) hg hh

/-- Different names from the root lead to different files. -/
theorem leads_inj (howned : Owned v) (h : Leads v rootVa names g) (h' : Leads v rootVa names' g) :
    names = names' := by
  -- from the last name back to the root, which is in no directory
  induction names using List.reverseRecOn generalizing names' g with
  | nil =>
      cases h
      cases names' using List.reverseRecOn with
      | nil => rfl
      | append_singleton init name' =>
          obtain ⟨dir, hdir, hname⟩ := leads_concat.mp h'
          exact absurd rfl (hname.entry.inDir.ne_root howned (hdir.reach .root))
  | append_singleton names name ih =>
      obtain ⟨dir, hdir, hname⟩ := leads_concat.mp h
      cases names' using List.reverseRecOn with
      | nil =>
          cases h'
          exact absurd rfl (hname.entry.inDir.ne_root howned (hdir.reach .root))
      | append_singleton init name' =>
          obtain ⟨dir', hdir', hname'⟩ := leads_concat.mp h'
          obtain rfl := hname.entry.inDir.unique howned hname'.entry.inDir (hdir.reach .root)
            (hdir'.reach .root)
          obtain rfl := ih hdir hdir'
          obtain rfl := nameAt_inj hname.string hname'.string hname.nul hname'.nul
          rfl

end Paths

/-! ## One edit -/

section Edits

variable {P : FileEdit → Prop} {v v' : Bytes.Memory} {e : FileEdit} {dir f g h b j x : Nat}
  {name : List U8} {names : List (List U8)}

/-- Only a new name makes an entry. -/
theorem Edit.entry_iff (he : Edit v e v') (h : DiskOk v) (hdir : Reach v dir) :
    Entry v' dir g ↔ Entry v dir g ∨ (e = .entry g ∧ InDir v dir g) := by
  cases he with
  | buffer hdisk =>
      rw [(sameTree_of_meta (hdisk.meta h.checked.blocks h.owned)).entry hdir]
      simp
  | take hf hexist hzero hb hw hdir' =>
      rw [(Edit.take_gains h hf hexist hzero hb hw hdir').2.entry hdir]
      simp
  | takeIndirect hf hzero hb hw hblock =>
      rw [(Edit.takeIndirect_gains h hf hzero hb hw hblock).2.entry hdir]
      simp
  | data hp hfile hlo hrest =>
      have hmeta := DataWrite.meta (fun x hx => hrest x (by omega)) h.owned hp hfile
      rw [(sameTree_of_meta hmeta).entry hdir]
      simp
  | resize hf hfile =>
      rw [(sizeStore_setWord.sameTree h.owned hf hfile).entry hdir]
      simp
  | clear hp hfile =>
      rw [(clear_loses h hp hfile).entry hdir]
      simp
  | @grow f n hf htype hn hsize =>
      have hold := dirNblocks_eq (by omega) hsize
      have hnew : dirNblocks (setWord v (fSizeVa f) (BitVec.ofNat 32 (4096 * (n + 1)))) f =
          n + 1 := dirNblocks_eq (by omega) word_setWord_self
      rw [sizeStore_setWord.grow_entry h.owned hf (h.dirs _ hf htype) (by rw [hold]; exact hnew)
        hdir]
      simp
  | @entry b j _ hb hj hold hblank hrest hnew =>
      rw [NameStore.entry h.owned hb hj hrest hold hnew hdir, FileEdit.entry.injEq]
      refine or_congr_right ?_
      constructor
      · rintro ⟨rfl, htype, i, hi, hc⟩
        exact ⟨rfl, htype, i, b, j, hi, hc, hj, rfl⟩
      · rintro ⟨rfl, htype, i, c, k, hi, hc, hk, heq⟩
        obtain ⟨rfl, rfl⟩ := fileVa_inj hj hk heq
        exact ⟨rfl, htype, i, hi, hc⟩

/-- A store to a slot is in the name of no record. -/
theorem SlotStore.nameByte {p : Slot} {w : U32} (howned : Owned v) (hp : Live v p)
    (hstore : SlotStore v v' p w) (hb : DirBlock v b) (hj : j < blkfiles)
    (hle : fileVa b j ≤ x) (hlt : x < fileVa b j + 128) : v' x = v x := by
  have hfar := hp.record_apart howned hb hj
  have hfirst := blkVa_not_bitmap (hb.range howned).2.1
  have hva : blkVa b ≤ fileVa b j := Nat.le_add_right _ _
  exact hstore.rest x (by omega) (by omega)

/-- The size of a file is in the name of no record. -/
theorem SizeStore.nameByte (howned : Owned v) (hf : Reach v f) (hstore : SizeStore v v' f)
    (hb : DirBlock v b) (hle : fileVa b j ≤ x) (hlt : x < fileVa b j + 128) : v' x = v x := by
  have htwo := (hb.range howned).1
  refine hstore x ?_
  rcases hf.shape with rfl | ⟨c, k, hc, hk, -, rfl⟩
  · unfold rootVa superVa
    unfold fileVa blkVa diskmap blksize at *
    omega
  · unfold fileVa blkVa diskmap blksize blkfiles at *
    omega

/-- The names of records stay, but for one that gets a name. -/
theorem Edit.nameByte (he : Edit v e v') (h : DiskOk v) (hb : DirBlock v b) (hj : j < blkfiles)
    (hne : e ≠ .entry (fileVa b j)) (hle : fileVa b j ≤ x) (hlt : x < fileVa b j + 128) :
    v' x = v x := by
  have hin : blkVa b ≤ x ∧ x < blkVa b + 4096 := by
    unfold fileVa blkfiles at *
    omega
  cases he with
  | buffer hdisk =>
      exact hdisk.meta h.checked.blocks h.owned x (Meta.dir hb hin.1 hin.2)
  | take hf hexist hzero hfree hw hdir =>
      exact (slotStore_bits (takeBit_bitsOnly hfree.lt)).nameByte h.owned (hf.live hexist) hb hj hle
        hlt
  | @takeIndirect f c w hf hzero hfree hw hblock =>
      have hlive : Live v (.indirect f) := ⟨hf, trivial⟩
      have hstore : SlotStore v (setWord (takeBit v c) (fIndirectVa f) w) (.indirect f) w :=
        slotStore_bits (p := .indirect f) (takeBit_bitsOnly hfree.lt)
      exact hstore.nameByte h.owned hlive hb hj hle hlt
  | data hp hfile hlo hrest =>
      exact DataWrite.meta (fun x hx => hrest x (by omega)) h.owned hp hfile x
        (Meta.dir hb hin.1 hin.2)
  | resize hf hfile => exact sizeStore_setWord.nameByte h.owned hf hb hle hlt
  | clear hp hfile =>
      exact (slotStore_bits (freeBit_bitsOnly (h.owned.range _ _ hp).2)).nameByte h.owned
        ⟨hp.reach, hp.has.exist⟩ hb hj hle hlt
  | grow hf _ _ _ => exact sizeStore_setWord.nameByte h.owned hf hb hle hlt
  | @entry c k _ hc hk _ _ hrest _ =>
      refine hrest x ?_
      have hfar : fileVa c k ≠ fileVa b j := fun heq => hne (congrArg FileEdit.entry heq)
      unfold fileVa blkVa diskmap blksize at *
      omega

/-- So do the strings, if they are short enough for a name. -/
theorem Edit.nameAt (he : Edit v e v') (h : DiskOk v) (hg : InDir v dir g) (hdir : Reach v dir)
    (hne : e ≠ .entry g) (hshort : name.length < maxnamelen) : NameAt v' g name ↔ NameAt v g name := by
  obtain ⟨b, j, hb, hj, rfl⟩ := hg.record hdir
  have hbyte : ∀ x, fileVa b j ≤ x → x < fileVa b j + (name.length + 1) → v' x = v x := by
    intro x hle hlt
    refine he.nameByte h hb hj hne hle ?_
    unfold maxnamelen at hshort
    omega
  have hbytes : bytesAt v' (fileVa b j) (name.length + 1) =
      bytesAt v (fileVa b j) (name.length + 1) := bytesAt_congr hbyte
  unfold NameAt
  rw [hbytes]

/-- An edit that is no new name leaves the names. -/
theorem Edit.named (he : Edit v e v') (h : DiskOk v) (hdir : Reach v dir)
    (hne : ∀ f, e ≠ .entry f) : Named v' dir name g ↔ Named v dir name g := by
  have hentry : Entry v' dir g ↔ Entry v dir g := by
    rw [he.entry_iff h hdir]
    simp [hne g]
  constructor
  · rintro ⟨hg, hname, hshort, hnul⟩
    have hold := hentry.mp hg
    exact ⟨hold, (he.nameAt h hold.inDir hdir (hne g) hshort).mp hname, hshort, hnul⟩
  · rintro ⟨hg, hname, hshort, hnul⟩
    exact ⟨hentry.mpr hg, (he.nameAt h hg.inDir hdir (hne g) hshort).mpr hname, hshort, hnul⟩

/-- A new name is that of one record, in one directory. -/
theorem Edit.named_entry (he : Edit v (.entry f) v') (h : DiskOk v) (hdir : Reach v dir)
    (hf : InDir v dir f) (hname : NameAt v' f name) (hshort : name.length < maxnamelen)
    (hnul : 0#8 ∉ name) {dir' : Nat} {name' : List U8} (hdir' : Reach v dir') :
    Named v' dir' name' g ↔ Named v dir' name' g ∨ (dir' = dir ∧ name' = name ∧ g = f) := by
  have hzero : v f = 0#8 := by
    cases he with
    | entry _ _ hold _ _ _ => exact hold
  have hother : ∀ {dir' g}, Entry v dir' g → FileEdit.entry f ≠ .entry g := by
    rintro dir' g ⟨-, -, -, -, -, -, -, -, hg⟩ heq
    cases heq
    exact hg hzero
  constructor
  · rintro ⟨hg, hstring, hshort', hnul'⟩
    rcases (he.entry_iff h hdir').mp hg with hold | ⟨heq, hin⟩
    · exact Or.inl ⟨hold, (he.nameAt h hold.inDir hdir' (hother hold) hshort').mp hstring, hshort',
        hnul'⟩
    · cases heq
      exact Or.inr ⟨hin.unique h.owned hf hdir' hdir, nameAt_inj hstring hname hnul' hnul, rfl⟩
  · rintro (⟨hg, hstring, hshort', hnul'⟩ | ⟨rfl, rfl, rfl⟩)
    · exact ⟨(he.entry_iff h hdir').mpr (Or.inl hg),
        (he.nameAt h hg.inDir hdir' (hother hg) hshort').mpr hstring, hshort', hnul'⟩
    · exact ⟨(he.entry_iff h hdir').mpr (Or.inr ⟨rfl, hf⟩), hname, hshort, hnul⟩

theorem Edits.named (he : Edits P v v') (h : DiskOk v) (hdir : Reach v dir)
    (hP : ∀ e f, P e → e ≠ .entry f) : Named v' dir name g ↔ Named v dir name g := by
  induction he with
  | refl => exact Iff.rfl
  | step hold hp he ih =>
      exact (he.named (hold.diskOk h) (hold.reach h hdir) (fun f => hP _ f hp)).trans ih

end Edits

end Jos

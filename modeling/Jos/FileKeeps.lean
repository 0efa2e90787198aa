import Jos.FileSystem

/-!
# What every program of the file system keeps

A predicate that loads, writes, flushes and notes keep, however they come, is kept
by every function of `fs/fs.c`.
-/

namespace Jos

open Programs Bytes

/-- A predicate that no primitive step breaks. -/
structure Stable (P : Fs → Prop) : Prop where
  loads : ∀ {s s' : Fs}, Loads s s' → P s → P s'
  writes : ∀ {s : Fs} (v : Bytes.Memory) (dst n : Nat), P s →
    P { s with toStore := s.write v dst n }
  flushes : ∀ {s : Fs} (b : Nat), P s → P { s with
    toStore := s.writeBack b
    trace := (.flushed b, s.writeBack b) :: s.trace }
  notes : ∀ {s : Fs} (n : FsNote), P s → P { s with trace := (n, s.toStore) :: s.trace }

/-- The trace only grows. -/
theorem stable_grows {t : List (FsNote × Store)} : Stable (fun s => t <:+ s.trace) where
  loads := fun h hs => by
    rw [h.trace]
    exact hs
  writes := fun _ _ _ hs => hs
  flushes := fun _ hs => hs.trans (List.suffix_cons _ _)
  notes := fun _ hs => hs.trans (List.suffix_cons _ _)

namespace Fs

variable {P : Fs → Prop} (hP : Stable P)

include hP

theorem keeps_note (n : FsNote) : Keeps P (note n) := Keeps.modify (fun _ => hP.notes n)

theorem keeps_touch (va : Nat) : Keeps P (touch va) := fun s hs =>
  wp_mono (touch_wp (s := s)) (fun _ _ h => hP.loads h.1 hs) (fun _ h => h)
    (fun _ _ => trivial)

theorem keeps_loadByte (va : Nat) : Keeps P (loadByte va) :=
  (keeps_touch hP va).bind (fun _ => Keeps.get.bind (fun _ => Keeps.pure _))

theorem keeps_loadWord (va : Nat) : Keeps P (loadWord va) :=
  (keeps_touch hP va).bind (fun _ => Keeps.get.bind (fun _ => Keeps.pure _))

theorem keeps_storeByte (va : Nat) (x : U8) : Keeps P (storeByte va x) :=
  (keeps_touch hP va).bind (fun _ => Keeps.modify (fun _ => hP.writes _ _ _))

theorem keeps_storeWord (va : Nat) (w : U32) : Keeps P (storeWord va w) :=
  (keeps_touch hP va).bind (fun _ => Keeps.modify (fun _ => hP.writes _ _ _))

theorem keeps_touchRange (va n : Nat) : Keeps P (touchRange va n) :=
  Keeps.when (Keeps.forRange (fun _ => keeps_touch hP _) _ _)

theorem keeps_memmove (dst src n : Nat) : Keeps P (memmove dst src n) :=
  (keeps_touchRange hP src n).bind (fun _ => (keeps_touchRange hP dst n).bind
    (fun _ => Keeps.modify (fun _ => hP.writes _ _ _)))

theorem keeps_diskaddr (b : Nat) : Keeps P (diskaddr b) :=
  (keeps_loadWord hP _).bind (fun _ => (Keeps.when Keeps.stop).bind
    (fun _ => Keeps.pure _))

theorem keeps_flushBlock (va : Nat) : Keeps P (flushBlock va) := by
  refine (Keeps.when Keeps.stop).bind (fun _ => fun s hs => ?_)
  rw [wp_get_bind]
  exact wp_when (fun _ => hP.flushes _ hs) (fun _ => hs)

theorem keeps_blockIsFree (b : Nat) : Keeps P (blockIsFree b) :=
  (keeps_loadWord hP _).bind (fun _ => (Keeps.pure _).ite
    ((keeps_loadWord hP _).bind (fun _ => Keeps.pure _)))

theorem keeps_freeBlock (b : Nat) : Keeps P (freeBlock b) :=
  (Keeps.when Keeps.stop).bind (fun _ => (keeps_loadWord hP _).bind
    (fun _ => keeps_storeWord hP _ _))

theorem keeps_allocFrom (n : Nat) : ∀ b, Keeps P (allocFrom b n) := by
  induction n with
  | zero => exact fun _ => Keeps.pure none
  | succ n ih =>
      intro b
      refine (keeps_blockIsFree hP b).bind (fun _ => Keeps.ite ?_ (ih (b + 1)))
      refine (keeps_loadWord hP _).bind (fun _ => (keeps_storeWord hP _ _).bind (fun _ => ?_))
      exact (keeps_diskaddr hP _).bind (fun va => (keeps_flushBlock hP va).bind
        (fun _ => Keeps.pure _))

theorem keeps_allocBlock : Keeps P allocBlock :=
  (keeps_loadWord hP _).bind (fun _ => keeps_allocFrom hP _ 0)

theorem keeps_fileBlockWalk (f filebno : Nat) (alloc : Bool) :
    Keeps P (fileBlockWalk f filebno alloc) := by
  refine (Keeps.pure _).ite ((Keeps.pure _).ite ?_)
  refine (keeps_loadWord hP _).bind (fun _ => Keeps.ite ?_ ((Keeps.pure _).ite ?_))
  · exact (keeps_diskaddr hP _).bind (fun _ => Keeps.pure _)
  · refine (keeps_allocBlock hP).bind (fun r => ?_)
    cases r with
    | none => exact Keeps.pure _
    | some bn =>
        exact (keeps_note hP _).bind (fun _ => (keeps_storeWord hP _ _).bind (fun _ =>
          (keeps_diskaddr hP bn).bind (fun va => (keeps_flushBlock hP va).bind (fun _ =>
            (keeps_diskaddr hP bn).bind (fun _ => Keeps.pure _)))))

theorem keeps_fileGetBlock (f filebno : Nat) : Keeps P (fileGetBlock f filebno) := by
  refine (keeps_fileBlockWalk hP f filebno true).bind (fun r => ?_)
  cases r with
  | error e => exact Keeps.pure _
  | ok pdiskbno =>
      refine (keeps_loadWord hP _).bind (fun _ => Keeps.ite ?_
        ((keeps_diskaddr hP _).bind (fun _ => Keeps.pure _)))
      refine (keeps_allocBlock hP).bind (fun r => ?_)
      cases r with
      | none => exact Keeps.pure _
      | some bn =>
          exact (keeps_note hP _).bind (fun _ => (keeps_storeWord hP _ _).bind (fun _ =>
            (keeps_diskaddr hP bn).bind (fun va => (keeps_flushBlock hP va).bind (fun _ =>
              (keeps_loadWord hP _).bind (fun _ => (keeps_diskaddr hP _).bind
                (fun _ => Keeps.pure _))))))

theorem keeps_strEq (name : List U8) : ∀ va, Keeps P (strEq va name) := by
  induction name with
  | nil => exact fun va => (keeps_loadByte hP va).bind (fun _ => Keeps.pure _)
  | cons c cs ih =>
      exact fun va => (keeps_loadByte hP va).bind (fun _ => (ih _).ite (Keeps.pure _))

theorem keeps_strCpy (name : List U8) : ∀ va, Keeps P (strCpy va name) := by
  induction name with
  | nil => exact fun va => keeps_storeByte hP va 0#8
  | cons c cs ih => exact fun va => (keeps_storeByte hP va c).bind (fun _ => ih _)

theorem keeps_findName (name : List U8) (n : Nat) : ∀ f, Keeps P (findName name f n) := by
  induction n with
  | zero => exact fun _ => Keeps.pure none
  | succ n ih =>
      exact fun f => (keeps_strEq hP name f).bind (fun _ => (Keeps.pure _).ite (ih _))

theorem keeps_findFree (n : Nat) : ∀ f, Keeps P (findFree f n) := by
  induction n with
  | zero => exact fun _ => Keeps.pure none
  | succ n ih =>
      exact fun f => (keeps_loadByte hP f).bind (fun _ => (Keeps.pure _).ite (ih _))

theorem keeps_dirScan {find : Nat → FsProg (Option Nat)} (hfind : ∀ blk, Keeps P (find blk))
    (dir n : Nat) : ∀ i, Keeps P (dirScan find dir i n) := by
  induction n with
  | zero => exact fun _ => Keeps.pure _
  | succ n ih =>
      intro i
      refine (keeps_fileGetBlock hP dir i).bind (fun r => ?_)
      cases r with
      | error e => exact Keeps.pure _
      | ok blk =>
          refine (hfind blk).bind (fun r => ?_)
          cases r with
          | none => exact ih (i + 1)
          | some f => exact Keeps.pure _

theorem keeps_dirBlocks (dir : Nat) : Keeps P (dirBlocks dir) :=
  (keeps_loadWord hP _).bind (fun _ => (Keeps.when Keeps.stop).bind (fun _ => Keeps.pure _))

theorem keeps_dirLookup (dir : Nat) (name : List U8) : Keeps P (dirLookup dir name) := by
  refine (keeps_dirBlocks hP dir).bind (fun n => (keeps_dirScan hP
    (fun blk => keeps_findName hP name _ blk) dir n 0).bind (fun r => ?_))
  rcases r with e | _ | f
  · exact Keeps.pure _
  · exact Keeps.pure _
  · exact Keeps.pure _

theorem keeps_dirAllocFile (dir : Nat) : Keeps P (dirAllocFile dir) := by
  refine (keeps_dirBlocks hP dir).bind (fun n => (keeps_dirScan hP
    (fun blk => keeps_findFree hP _ blk) dir n 0).bind (fun r => ?_))
  rcases r with e | _ | f
  · exact Keeps.pure _
  · refine (keeps_loadWord hP _).bind (fun _ => (keeps_note hP _).bind (fun _ =>
      (keeps_storeWord hP _ _).bind (fun _ => (keeps_fileGetBlock hP dir n).bind
        (fun r => ?_))))
    cases r with
    | error e => exact Keeps.pure _
    | ok blk => exact (keeps_note hP _).bind (fun _ => Keeps.pure _)
  · exact (keeps_note hP _).bind (fun _ => Keeps.pure _)

theorem keeps_walkFrom (n : Nat) : ∀ dir f path, Keeps P (walkFrom dir f n path) := by
  induction n with
  | zero => exact fun _ _ _ => Keeps.pure _
  | succ n ih =>
      intro dir f path
      cases path with
      | nil => exact Keeps.pure _
      | cons c cs =>
          refine (Keeps.pure _).ite ((keeps_loadWord hP _).bind (fun _ =>
            (Keeps.pure _).ite ((keeps_dirLookup hP f _).bind (fun r => ?_))))
          cases r with
          | error e => exact (Keeps.pure _).ite (Keeps.pure _)
          | ok g => exact ih _ _ _

theorem keeps_walkPath (path : List U8) : Keeps P (walkPath path) :=
  keeps_walkFrom hP _ _ _ _

theorem keeps_flushFrom (f n : Nat) : ∀ i, Keeps P (flushFrom f i n) := by
  induction n with
  | zero => exact fun _ => Keeps.pure ()
  | succ n ih =>
      intro i
      refine (keeps_fileBlockWalk hP f i false).bind (fun r => ?_)
      cases r with
      | error e => exact ih (i + 1)
      | ok pdiskbno =>
          exact (keeps_loadWord hP _).bind (fun _ => (ih (i + 1)).ite
            ((keeps_diskaddr hP _).bind (fun va => (keeps_flushBlock hP va).bind
              (fun _ => ih (i + 1)))))

theorem keeps_fileFlush (f : Nat) : Keeps P (fileFlush f) :=
  (keeps_loadWord hP _).bind (fun _ => (keeps_flushFrom hP f _ 0).bind (fun _ =>
    (keeps_flushBlock hP f).bind (fun _ => (keeps_loadWord hP _).bind (fun _ =>
      Keeps.when ((keeps_diskaddr hP _).bind (keeps_flushBlock hP))))))

theorem keeps_fileCreate (path : List U8) : Keeps P (fileCreate path) := by
  refine (keeps_walkPath hP path).bind (fun r => ?_)
  cases r with
  | found dir f => exact Keeps.pure _
  | fails e => exact Keeps.pure _
  | missing dir name =>
      refine (keeps_dirAllocFile hP dir).bind (fun r => ?_)
      cases r with
      | error e => exact Keeps.pure _
      | ok f =>
          exact (keeps_strCpy hP name f).bind (fun _ => (keeps_fileFlush hP dir).bind
            (fun _ => Keeps.pure _))

theorem keeps_fileOpen (path : List U8) : Keeps P (fileOpen path) := by
  refine (keeps_walkPath hP path).bind (fun r => ?_)
  cases r with
  | found dir f => exact Keeps.pure _
  | missing dir name => exact Keeps.pure _
  | fails e => exact Keeps.pure _

theorem keeps_copyFrom (f : Nat) (write : Bool) (last : U32) (n : Nat) :
    ∀ buf pos, Keeps P (copyFrom f write last buf pos n) := by
  induction n with
  | zero => exact fun _ _ => Keeps.pure _
  | succ n ih =>
      intro buf pos
      refine Keeps.ite ((keeps_fileGetBlock hP f _).bind (fun r => ?_)) (Keeps.pure _)
      cases r with
      | error e => exact Keeps.pure _
      | ok blk =>
          refine (keeps_note hP _).bind (fun _ => (keeps_memmove hP _ _ _).bind
            (fun _ => ?_))
          exact ih _ _

theorem keeps_fileRead (f buf : Nat) (count offset : U32) :
    Keeps P (fileRead f buf count offset) := by
  refine (keeps_loadWord hP _).bind (fun _ => (Keeps.pure _).ite
    ((keeps_copyFrom hP f false _ _ _ _).bind (fun r => ?_)))
  cases r with
  | error e => exact Keeps.pure _
  | ok u => exact Keeps.pure _

theorem keeps_fileFreeBlock (f filebno : Nat) : Keeps P (fileFreeBlock f filebno) := by
  refine (keeps_fileBlockWalk hP f filebno false).bind (fun r => ?_)
  cases r with
  | error e => exact Keeps.pure _
  | ok ptr =>
      exact (keeps_loadWord hP _).bind (fun _ => (Keeps.when ((keeps_freeBlock hP _).bind
        (fun _ => (keeps_note hP _).bind (fun _ => keeps_storeWord hP _ _)))).bind
          (fun _ => Keeps.pure _))

theorem keeps_freeFrom (f n : Nat) : ∀ i, Keeps P (freeFrom f i n) := by
  induction n with
  | zero => exact fun _ => Keeps.pure ()
  | succ n ih => exact fun i => (keeps_fileFreeBlock hP f i).bind (fun _ => ih (i + 1))

theorem keeps_fileTruncateBlocks (f : Nat) (newsize : U32) :
    Keeps P (fileTruncateBlocks f newsize) :=
  (keeps_loadWord hP _).bind (fun _ => (keeps_freeFrom hP f _ _).bind (fun _ =>
    (keeps_loadWord hP _).bind (fun _ => Keeps.when ((keeps_freeBlock hP _).bind
      (fun _ => (keeps_note hP _).bind (fun _ => keeps_storeWord hP _ _))))))

theorem keeps_fileSetSize (f : Nat) (newsize : U32) : Keeps P (fileSetSize f newsize) :=
  (keeps_loadWord hP _).bind (fun _ => (Keeps.when (keeps_fileTruncateBlocks hP f newsize)).bind
    (fun _ => (keeps_note hP _).bind (fun _ => (keeps_storeWord hP _ _).bind
      (fun _ => keeps_flushBlock hP f))))

theorem keeps_fileWrite (f buf : Nat) (count offset : U32) :
    Keeps P (fileWrite f buf count offset) := by
  refine (keeps_loadWord hP _).bind (fun _ => (Keeps.when (keeps_fileSetSize hP f _)).bind
    (fun _ => (keeps_copyFrom hP f true _ _ _ _).bind (fun r => ?_)))
  cases r with
  | error e => exact Keeps.pure _
  | ok u => exact Keeps.pure _

theorem keeps_syncFrom (n : Nat) : ∀ b, Keeps P (syncFrom b n) := by
  induction n with
  | zero => exact fun _ => Keeps.pure ()
  | succ n ih =>
      exact fun b => (keeps_diskaddr hP b).bind (fun va => (keeps_flushBlock hP va).bind
        (fun _ => ih (b + 1)))

theorem keeps_fsSync : Keeps P fsSync :=
  (keeps_loadWord hP _).bind (fun _ => keeps_syncFrom hP _ 1)

end Fs

end Jos

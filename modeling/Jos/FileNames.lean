import Jos.FileRuns

/-!
# Paths in runs of the file system

`Tree` is what a log tells of names: the files that paths were found to lead to.  In every run
a path leads to one file and stays with it, no two paths lead to the same file, and a file that
is created is none that a path led to.  Only the components of a path matter.

* `fsRun_names`: the results of `file_open` and `file_create` in every run.
-/

namespace Jos

open Programs Bytes Fs

/-- The files that are known by the names on the way to them. -/
abbrev Tree := List (List U8) → Option Nat

namespace Tree

/-- What is known after a call. -/
def after (T : Tree) : FileCall → Tree
  | .opened path (.ok f) => Function.update T (components path) (some f)
  | .created path (.ok f) => Function.update T (components path) (some f)
  | _ => T

/-- The results that a call may have: a path that is known leads where it led, and no other
path leads there. -/
def Fits (T : Tree) : FileCall → Prop
  | .opened path (.ok f) => ∀ names g, T names = some g → (names = components path ↔ g = f)
  | .opened path (.error e) => NoRoom e ∨ T (components path) = none
  | .created path (.ok f) => ∀ names g, T names = some g → names ≠ components path ∧ g ≠ f
  | .created path (.error e) => NoRoom e ∨ e = .fileExists ∨ T (components path) = none
  | _ => True

end Tree

/-- The paths that are known lead there, and names are unique. -/
structure TreeOk (T : Tree) (v : Bytes.Memory) : Prop where
  unique : NamesUnique v
  leads : ∀ names f, T names = some f → Leads v rootVa names f

section Steps

variable {T : Tree} {v v' : Bytes.Memory} {s s' : Fs} {f g dir : Nat} {names : List (List U8)}
  {path name : List U8} {c : FileCall} {r : FsResult Nat}

theorem NamesUnique.same (h : NamesUnique v) (hnames : SameNames v v') : NamesUnique v' := by
  intro dir name g k hdir hg hk
  have hdir' := (hnames.reach dir).mp hdir
  exact h dir name g k hdir' ((hnames.named dir name g hdir').mp hg)
    ((hnames.named dir name k hdir').mp hk)

theorem TreeOk.same (h : TreeOk T v) (hnames : SameNames v v') : TreeOk T v' :=
  ⟨h.unique.same hnames, fun names f hf => (hnames.leads .root).mpr (h.leads names f hf)⟩

/-- One more path is known. -/
theorem TreeOk.update (h : TreeOk T v) (hf : Leads v rootVa names f) :
    TreeOk (Function.update T names (some f)) v := by
  constructor
  · exact h.unique
  · intro names' g hg
    by_cases heq : names' = names
    · subst heq
      rw [Function.update_self] at hg
      cases hg
      exact hf
    · rw [Function.update_of_ne heq] at hg
      exact h.leads names' g hg

/-- A path that is known cannot lead elsewhere, and no other path leads there. -/
theorem TreeOk.fits (h : TreeOk T v) (howned : Owned v) (hf : Leads v rootVa names f)
    {names' : List (List U8)} (hg : T names' = some g) : names' = names ↔ g = f := by
  constructor
  · rintro rfl
    exact leads_unique h.unique .root (h.leads names' g hg) hf
  · rintro rfl
    exact leads_inj howned (h.leads names' g hg) hf

theorem Fs.NewName.leads_mono {dir' : Nat} (h : NewName v v' names dir name f) (hdir' : Reach v dir')
    {names' : List (List U8)} (hg : Leads v dir' names' g) : Leads v' dir' names' g := by
  induction names' generalizing dir' with
  | nil => exact hg
  | cons name names' ih =>
      obtain ⟨k, hk, hg⟩ := hg
      exact ⟨k, (h.named dir' name k hdir').mpr (Or.inl hk), ih (hk.reach hdir') hg⟩

theorem Fs.NewName.leads (h : NewName v v' names dir name f) : Leads v' rootVa names f := by
  obtain ⟨init, rfl, hinit⟩ := h.init
  exact leads_concat.mpr ⟨dir, h.leads_mono .root hinit,
    (h.named dir name f (hinit.reach .root)).mpr (Or.inr ⟨rfl, rfl, rfl⟩)⟩

theorem Fs.NewName.unique (h : NewName v v' names dir name f) (hunique : NamesUnique v)
    (hreach : ∀ g, Reach v' g ↔ Reach v g ∨ g = f) (hfile : ¬ IsDir v' f) : NamesUnique v' := by
  intro d n g k hd hg hk
  rcases (hreach d).mp hd with hold | rfl
  · rcases (h.named d n g hold).mp hg with hg | ⟨rfl, rfl, rfl⟩
    · rcases (h.named d n k hold).mp hk with hk | ⟨rfl, rfl, rfl⟩
      · exact hunique d n g k hold hg hk
      · exact absurd hg (h.absent g)
    · rcases (h.named d n k hold).mp hk with hk | ⟨-, -, rfl⟩
      · exact absurd hk (h.absent k)
      · rfl
  · exact absurd hg.entry.1 hfile

/-- The names stay, and the call fitted what was known. -/
structure NamesOk (T : Tree) (c : FileCall) (v : Bytes.Memory) : Prop where
  tree : TreeOk (T.after c) v
  fits : T.Fits c

theorem names_opened (hs : Mount s) (hT : TreeOk T s.view) (hnul : 0#8 ∉ path)
    (hrun : (fileOpen path).run s = .ret r s') (hclean : Clean SoundNote s') :
    NamesOk T (.opened path r) s'.view := by
  obtain ⟨hs', hedits, hresult⟩ := Noted.value (fileOpen_wp hs hnul) hrun hclean
  have hT' := hT.same (hedits.sameNames_take hs.disk)
  cases r with
  | ok f => exact ⟨hT'.update hresult, fun names g hg => hT'.fits hs'.owned hresult hg⟩
  | error e =>
      refine ⟨hT', hresult.imp_right (fun hno => ?_)⟩
      cases hknown : T (components path) with
      | none => rfl
      | some g => exact absurd (hT'.leads _ g hknown) (hno.2 hT'.unique g)

theorem names_created (hs : Mount s) (hT : TreeOk T s.view) (hnul : 0#8 ∉ path)
    (hrun : (fileCreate path).run s = .ret r s') (hclean : Clean SoundNote s') :
    NamesOk T (.created path r) s'.view := by
  obtain ⟨hs', hedits, hresult⟩ := Noted.value (fileCreate_wp hs hnul) hrun hclean
  cases r with
  | ok f =>
      obtain ⟨hgone, hreach, hfile, -, -, dir, name, hnew⟩ := hresult
      have hT' : TreeOk T s'.view := ⟨hnew.unique hT.unique hreach hfile,
        fun names g hg => hnew.leads_mono .root (hT.leads names g hg)⟩
      refine ⟨hT'.update hnew.leads, fun names g hg => ?_⟩
      have hne : g ≠ f := fun heq => hgone (heq ▸ (hT.leads names g hg).reach .root)
      exact ⟨mt (hT'.fits hs'.owned hnew.leads hg).mp hne, hne⟩
  | error e =>
      obtain ⟨hnames, hresult⟩ := hresult
      have hT' := hT.same hnames
      refine ⟨hT', hresult.imp_right (fun hresult => ?_)⟩
      rcases hresult with hno | ⟨rfl, -⟩
      · right
        cases hknown : T (components path) with
        | none => rfl
        | some g => exact absurd (hT'.leads _ g hknown) (hno.2 hT'.unique g)
      · exact Or.inl rfl

theorem copyEdit_ne_entry {write : Bool} {lo hi last : Nat} {e : FileEdit}
    (he : CopyEdit f write lo hi last e) : e ≠ .entry g := by
  rintro rfl
  rcases he with ⟨i, -, -, ⟨b, he⟩ | ⟨b, he⟩⟩ | ⟨-, he⟩ | ⟨-, k, n, -, -, he⟩ <;> cases he

theorem writeEdit_ne_entry {lo hi last : Nat} {e : FileEdit} (he : WriteEdit f lo hi last e) :
    e ≠ .entry g := by
  rcases he with ⟨n, rfl⟩ | he
  · simp
  · exact copyEdit_ne_entry he

/-- What is known stays if no name is new. -/
theorem FsStep.treeOk (h : FsStep s c s') (hs : Mount s) (hT : TreeOk T s.view)
    (hclean : Clean SoundNote s') : NamesOk T c s'.view := by
  cases h with
  | opened hnul hrun => exact names_opened hs hT hnul hrun hclean
  | created hnul hrun => exact names_created hs hT hnul hrun hclean
  | @read f buf count offset r _ hf hoffset hbuf hrun =>
      have hwp := fileRead_wp count hs hf soundNote_read hoffset
        (fun x hle hlt => hbuf x hle (by omega))
      obtain ⟨-, stop, n, -, -, -, hread, -⟩ := Noted.value hwp hrun hclean
      exact ⟨hT.same (hread.edits.sameNames hs.disk (fun _ _ he => copyEdit_ne_entry he)), trivial⟩
  | @wrote f buf count offset r _ hf hfile hend hbuf hrun =>
      have hwp := fileWrite_wp SoundNote hs hf hfile hend (fun _ _ _ _ h => h) hbuf
      obtain ⟨-, stop, -, -, hwrote, -⟩ := Noted.value hwp hrun hclean
      exact ⟨hT.same (hwrote.edits.sameNames hs.disk (fun _ _ he => writeEdit_ne_entry he)), trivial⟩
  | @resized f size _ hf hfile hrun =>
      obtain ⟨-, -, hcut, hgrow⟩ := (fileSetSize_returns hs hf hfile).value hrun
      have hedits : Edits (SetSizeEdit f size) s.view s'.view := by
        cases hslt : size.slt (fileSize s.view f) with
        | true => exact (hcut hslt).1
        | false => exact (hgrow hslt).mono (fun e he => Or.inr he)
      exact ⟨hT.same (hedits.sameNames hs.disk (fun _ g he => (setSizeEdit_other he).2.1 g)),
        trivial⟩
  | flushed hf hrun =>
      obtain ⟨-, hview⟩ := (fileFlush_returns hs hf).value hrun
      exact ⟨hview ▸ hT, trivial⟩
  | synced hrun =>
      obtain ⟨-, hview⟩ := (fsSync_returns hs).value hrun
      exact ⟨hview ▸ hT, trivial⟩

end Steps

/-! ## Disks that were formatted -/

section Formatted

variable {v : Bytes.Memory} {nblocks : Nat} {files : List HostFile}

/-- If the host has no two files of the same name, neither has the disk. -/
theorem Image.namesUnique (h : Image v nblocks files) (hne : files ≠ [])
    (hnodup : (files.map HostFile.name).Nodup) : NamesUnique v := by
  have howned := h.owned hne
  have hrecord : ∀ {dir name g}, Reach v dir → Named v dir name g →
      ∃ i, ∃ hi : i < files.length, g = blkVa (endOf 3 files) + 256 * i ∧
        name = files[i].name := by
    intro dir name g hdir hg
    rcases h.reach (hg.reach hdir) with rfl | ⟨i, hi, rfl⟩
    · exact absurd rfl (hg.entry.inDir.ne_root howned hdir)
    · exact ⟨i, hi, rfl, nameAt_inj hg.string (h.file hi).name hg.nul (files[i].name_nul)⟩
  intro dir name g k hdir hg hk
  obtain ⟨i, hi, rfl, rfl⟩ := hrecord hdir hg
  obtain ⟨j, hj, rfl, hname⟩ := hrecord hdir hk
  have hi' : i < (files.map HostFile.name).length := by simpa using hi
  have hj' : j < (files.map HostFile.name).length := by simpa using hj
  have hsame : (files.map HostFile.name)[i] = (files.map HostFile.name)[j] := by
    simpa using hname
  rw [(List.Nodup.getElem_inj_iff hnodup).mp hsame]

end Formatted

/-! ## Runs -/

section Runs

variable {T : Tree} {s s' : Fs} {log : List FileCall}

def createdFs : Fs := ((fileCreate [98#8]).run threeFs).state

def openedFs : Fs := ((fileOpen [slash, 98#8, slash]).run createdFs).state

def createOpen : List FileCall :=
  [.created [98#8] (.ok (blkVa 4 + 256)), .opened [slash, 98#8, slash] (.ok (blkVa 4 + 256))]

theorem createOpen_run : FsRun threeFs createOpen openedFs ∧ Clean SoundNote openedFs := by
  have hcreate : (fileCreate [98#8]).run threeFs = .ret (.ok (blkVa 4 + 256)) createdFs :=
    run_eq_ret (by decide +kernel)
  have hopen : (fileOpen [slash, 98#8, slash]).run createdFs =
      .ret (.ok (blkVa 4 + 256)) openedFs := run_eq_ret (by decide +kernel)
  constructor
  · exact .snoc (.snoc .nil (.created (by decide) hcreate)) (.opened (by decide) hopen)
  · intro p hp
    have hkinds : openedFs.trace.all (fun p => match p.1 with
        | .entry _ f => p.2.view f == 0#8 &&
            (List.range 180).all (fun k => k < 128 || p.2.view (f + k) == 0#8)
        | .flushed _ => true
        | _ => false) = true := by decide +kernel
    have hkind := List.all_eq_true.mp hkinds p hp
    split at hkind
    · rename_i heq
      simp only [Bool.and_eq_true, beq_iff_eq, List.all_eq_true, List.mem_range,
        Bool.or_eq_true, decide_eq_true_eq] at hkind
      rw [heq]
      refine ⟨hkind.1, fun k hlo hhi => ?_⟩
      rcases hkind.2 k hhi with hlt | hzero
      · omega
      · exact hzero
    · rename_i heq
      rw [heq]
      trivial
    · cases hkind

theorem threeFs_treeOk : TreeOk (fun _ => none) threeFs.view := by
  obtain ⟨_, _, _, himage⟩ := threeFs_formatted.image (by decide)
  constructor
  · exact himage.namesUnique (by decide) (by decide)
  · intro names f hf
    cases hf

end Runs

end Jos

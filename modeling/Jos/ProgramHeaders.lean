import Jos.Lib.Keeps
import Jos.Spawn

/-!
# The program headers that `spawn` reads

`e_phoff` and `e_phnum` come from the file and are not compared with the 512 bytes that
were read: the headers are taken from wherever they point, on the stack of the caller
or beyond.
-/

namespace Jos.User

open Programs

/-- The program headers lie in `elf_buf`. -/
def HeadersInside (b : Binary) : Prop := ∀ i, i < b.ePhnum → headerOffset b i + 32 ≤ 512

/-- `spawn` looks for program headers in `elf_buf` only, and rejects a file that has
others. -/
structure HeadersChecked (g : Setting) (path : List U8) (argv : List (List U8))
    (s : SpawnState) : Prop where
  reads : ∀ o, o ∈ ((spawn g path argv).run s).state.headers → o + 32 ≤ 512
  rejects : ∀ fd bs s₁, (readHeader g path).run s = .ret (.ok (fd, bs)) s₁ →
    ¬ HeadersInside (elfBuf bs) → ∃ s', (spawn g path argv).run s = .ret (-eNotExec) s'

section Spawn

variable {g : Setting} {fd : Int} {va memsz filesz fileoffset perm i : U32} {k n : Nat}
  {b : Binary} {argv : List (List U8)} {path : List U8}

/-! ## What is looked at -/

/-- All headers looked at so far lie in `elf_buf`. -/
def LookedInside (s : SpawnState) : Prop := ∀ o, o ∈ s.headers → o + 32 ≤ 512

theorem ends_onCaller {α : Type} {m : Prog Caller α} : Ends LookedInside (onCaller m) :=
  Ends.zoom (fun _ _ h => h)

theorem ends_refuse {q : Refusal} : Ends LookedInside (refuse q) := Ends.modify (fun _ h => h)

theorem ends_readFile : Ends LookedInside (readFile g fd n) := by
  unfold readFile
  refine ends_onCaller.bind (fun r => .ite (.pure _) (.bind .get (fun s => ?_)))
  refine .bind (.modify (fun _ h => h)) (fun _ => ?_)
  cases g.read s.requests s.offset n with
  | error e => exact ends_refuse.bind (fun _ => .pure _)
  | ok bs =>
      exact (Ends.when .stop).bind (fun _ =>
        .bind (.modify (fun _ h => h)) (fun _ => .pure _))

theorem ends_readLoop : Ends LookedInside (readLoop g fd k n) := by
  induction k generalizing n with
  | zero => exact .pure _
  | succ k ih =>
      unfold readLoop
      exact .ite (.pure _) (ends_readFile.bind (fun _ => .ite (.pure _)
        (.ite (.pure _) (ih.bind (fun _ => .pure _)))))

theorem ends_seek : Ends LookedInside (seek fd fileoffset) := by
  unfold seek
  exact ends_onCaller.bind (fun _ => .ite (.pure _)
    (.bind (.modify (fun _ h => h)) (fun _ => .pure _)))

theorem ends_mapPage : Ends LookedInside (mapPage g fd va filesz fileoffset perm i) := by
  unfold mapPage
  refine .ite (ends_onCaller.bind (fun _ => (Ends.when ends_refuse).bind (fun _ => .pure _)))
    (ends_onCaller.bind (fun _ => .ite (ends_refuse.bind (fun _ => .pure _)) ?_))
  refine ends_seek.bind (fun _ => .ite (.pure _) (ends_readLoop.bind (fun _ => ?_)))
  refine ends_onCaller.bind (fun _ => .ite (.pure _) (ends_onCaller.bind (fun _ => ?_)))
  exact (Ends.when .stop).bind (fun _ => ends_onCaller.bind (fun _ => .pure _))

theorem ends_mapPages :
    Ends LookedInside (mapPages g fd va memsz filesz fileoffset perm k i) := by
  induction k generalizing i with
  | zero => exact .stop
  | succ k ih =>
      unfold mapPages
      exact .ite (.pure _) (ends_mapPage.bind (fun _ => .ite (.pure _) ih))

/-- Headers that lie in `elf_buf` are looked at. -/
theorem ends_mapSegments (h : ∀ j, i.toNat ≤ j → j < i.toNat + n →
      headerOffset b j + 32 ≤ 512) :
    Ends LookedInside (mapSegments g fd b i.toNat n) := by
  generalize i.toNat = i at h ⊢
  induction n generalizing i with
  | zero => exact .pure _
  | succ n ih =>
      have hhere := h i (Nat.le_refl i) (by omega)
      have hrest := ih (i + 1) (fun j hj hlt => h j (by omega) (by omega))
      have hload : Ends LookedInside (loadHeader g b (headerOffset b i)) := by
        unfold loadHeader
        rw [if_pos hhere]
        refine .bind (.modify (fun s hs o ho => ?_)) (fun _ => .pure _)
        rcases List.mem_append.mp ho with hold | hnew
        · exact hs o hold
        · rw [List.mem_singleton.mp hnew]
          exact hhere
      unfold mapSegments
      exact hload.bind (fun _ => .ite hrest
        (ends_mapPages.bind (fun _ => .ite (.pure _) hrest)))

theorem ends_initStack : Ends LookedInside (initStack argv) := by
  unfold initStack
  refine .ite (ends_refuse.bind (fun _ => .pure _)) (ends_onCaller.bind (fun _ => ?_))
  refine .ite (ends_refuse.bind (fun _ => .pure _)) (ends_onCaller.bind (fun _ => ?_))
  exact ends_onCaller.bind (fun _ => .ite
    (ends_refuse.bind (fun _ => ends_onCaller.bind (fun _ => .pure _)))
    (ends_onCaller.bind (fun _ => .pure _)))

theorem ends_openFile : Ends LookedInside (openFile g path) := by
  unfold openFile
  refine .ite (.pure _) (ends_onCaller.bind (fun r => ?_))
  cases r with
  | none => exact .pure _
  | some fd =>
      cases g.opened with
      | error r => exact ends_onCaller.bind (fun _ => .pure _)
      | ok p =>
          exact ends_onCaller.bind (fun _ =>
            .bind (.modify (fun _ h => h)) (fun _ => .pure _))

variable (path) in
theorem ends_readHeader : Ends LookedInside (readHeader g path) := by
  unfold readHeader
  exact ends_openFile.bind (fun _ => .ite (.pure _) (ends_readLoop.bind (fun _ =>
    .ite (ends_onCaller.bind (fun _ => .pure _)) (.pure _))))

theorem ends_spawnImage (h : HeadersInside b) :
    Ends LookedInside (spawnImage g fd b argv) := by
  have hsegments : Ends LookedInside (mapSegments g fd b 0 b.ePhnum) :=
    ends_mapSegments (i := 0#32) (fun j _ hlt => h j (by simpa using hlt))
  unfold spawnImage
  refine ends_onCaller.bind (fun _ => .ite (ends_refuse.bind (fun _ => .pure _)) ?_)
  refine ends_initStack.bind (fun _ => .ite (.pure _) (hsegments.bind (fun _ => ?_)))
  exact .ite (ends_onCaller.bind (fun _ => ends_onCaller.bind (fun _ => .pure _)))
    (ends_onCaller.bind (fun _ => ends_onCaller.bind (fun _ => .pure _)))

/-! ## What is returned -/

/-- An error that is not `E_NOT_EXEC`, or no error. -/
def NotNotExec (r : Int) : Prop := r ≠ -eNotExec

instance (r : Int) : Decidable (NotNotExec r) := inferInstanceAs (Decidable (_ ≠ _))

theorem yields_pageInsert {who : Who} {t : PageTable} {v : Nat} {w : UserPte}
    {hw : v < userPages ∧ UserFlags w.perm} :
    Programs.Yields NotNotExec (pageInsert who t v w hw) := by
  unfold pageInsert
  exact .last (fun _ => .ite (fun _ => .last (fun _ => .pure (by decide)))
    (fun _ => .pure (by decide)))

theorem yields_sysPageAlloc {who : Who} {v : Nat} :
    Programs.Yields NotNotExec (sysPageAlloc who v perm) := by
  unfold sysPageAlloc
  refine .last (fun s => ?_)
  cases s.space who with
  | none => exact .pure (by decide)
  | some t =>
      dsimp only
      split
      · exact .last (fun _ => .ite (fun _ => .last (fun _ => yields_pageInsert))
          (fun _ => .pure (by decide)))
      · exact .pure (by decide)

theorem yields_sysPageMap {src dst : Nat} {who : Who} :
    Programs.Yields NotNotExec (sysPageMap src who dst perm) := by
  unfold sysPageMap
  refine .last (fun s => ?_)
  cases s.space who with
  | none => exact .pure (by decide)
  | some t =>
      cases s.own.entry src with
      | none => exact .pure (by decide)
      | some w =>
          dsimp only
          split
          · exact .ite (fun _ => .pure (by decide)) (fun _ => yields_pageInsert)
          · exact .pure (by decide)

theorem yields_fdLookup : Programs.Yields NotNotExec (fdLookup fd) := by
  unfold fdLookup
  refine .ite (fun _ => .last (fun s => ?_)) (fun _ => .pure (by decide))
  cases s.own.entry (fdPage fd) with
  | none => exact .pure (by decide)
  | some w => exact .pure (by decide)

theorem yields_seek : Programs.Yields NotNotExec (seek fd fileoffset) := by
  unfold seek
  exact (yields_fdLookup.zoom).bind (fun r hr => .ite (fun _ => .pure hr)
    (fun _ => .last (fun _ => .pure (by decide))))

theorem yields_readFile : Programs.Yields (fun r => NotNotExec r.1) (readFile g fd n) := by
  unfold readFile
  refine (yields_fdLookup.zoom).bind (fun r hr => .ite (fun _ => .pure hr) (fun _ => ?_))
  refine .last (fun s => .last (fun _ => ?_))
  cases g.read s.requests s.offset n with
  | error e =>
      refine .last (fun _ => .pure ?_)
      cases e <;> decide
  | ok bs =>
      refine .last (fun _ => .last (fun _ => .pure ?_))
      intro h
      have hnonneg : 0 ≤ (bs.length : Int) := Int.natCast_nonneg _
      have heq : (bs.length : Int) = -14 := h
      omega

theorem yields_readLoop : Programs.Yields (fun r => NotNotExec r.1) (readLoop g fd k n) := by
  induction k generalizing n with
  | zero => exact .pure (by decide)
  | succ k ih =>
      unfold readLoop
      refine .ite (fun _ => .pure (by decide)) (fun _ => ?_)
      refine yields_readFile.bind (fun r hr => .ite (fun _ => .pure hr) (fun _ => ?_))
      refine .ite (fun _ => .pure (by decide)) (fun _ => ih.bind (fun r' hr' => .pure ?_))
      dsimp only
      split
      · exact hr'
      · intro h
        have heq : (r.2.length : Int) + r'.1 = -14 := h
        omega

theorem yields_mapPage : Programs.Yields NotNotExec (mapPage g fd va filesz fileoffset perm i) := by
  unfold mapPage
  refine .ite (fun _ => (yields_sysPageAlloc.zoom).bind (fun _ hr =>
    .last (fun _ => .pure hr))) (fun _ => ?_)
  refine (yields_sysPageAlloc.zoom).bind (fun _ hr => .ite
    (fun _ => .last (fun _ => .pure hr)) (fun _ => ?_))
  refine yields_seek.bind (fun _ hr => .ite (fun _ => .pure hr) (fun _ => ?_))
  refine yields_readLoop.bind (fun _ hr => .last (fun _ => .ite (fun _ => .pure hr)
    (fun _ => ?_)))
  exact .last (fun _ => .last (fun _ => .last (fun _ => .pure (by decide))))

theorem yields_mapPages :
    Programs.Yields NotNotExec (mapPages g fd va memsz filesz fileoffset perm k i) := by
  induction k generalizing i with
  | zero => exact .stop
  | succ k ih =>
      unfold mapPages
      exact .ite (fun _ => .pure (by decide)) (fun _ =>
        yields_mapPage.bind (fun _ hr => .ite (fun _ => .pure hr) (fun _ => ih)))

theorem yields_mapSegments {i : Nat} : Programs.Yields NotNotExec (mapSegments g fd b i n) := by
  induction n generalizing i with
  | zero => exact .pure (by decide)
  | succ n ih =>
      unfold mapSegments
      exact .last (fun _ => .ite (fun _ => ih) (fun _ =>
        yields_mapPages.bind (fun _ hr => .ite (fun _ => .pure hr) (fun _ => ih))))

theorem yields_initStack : Programs.Yields (fun r => NotNotExec r.1) (initStack argv) := by
  unfold initStack
  refine .ite (fun _ => .last (fun _ => .pure (by decide))) (fun _ => ?_)
  refine (yields_sysPageAlloc.zoom).bind (fun _ hr => .ite
    (fun _ => .last (fun _ => .pure hr)) (fun _ => .last (fun _ => ?_)))
  exact (yields_sysPageMap.zoom).bind (fun _ hr => .ite
    (fun _ => .last (fun _ => .last (fun _ => .pure hr)))
    (fun _ => .last (fun _ => .pure (show NotNotExec 0 by decide))))

theorem yields_sysExofork : Programs.Yields NotNotExec (sysExofork g) := by
  unfold sysExofork
  cases hslot : g.slot with
  | none => exact .pure (by decide)
  | some c =>
      refine .last (fun _ => .ite (fun _ => .last (fun _ => .pure ?_))
        (fun _ => .pure (by decide)))
      intro h
      have hpos := g.slot_pos c hslot
      have heq : c = -14 := h
      omega

theorem yields_spawnImage : Programs.Yields NotNotExec (spawnImage g fd b argv) := by
  unfold spawnImage
  refine (yields_sysExofork.zoom).bind (fun c hc => .ite
    (fun _ => .last (fun _ => .pure hc)) (fun _ => ?_))
  refine yields_initStack.bind (fun r hr => .ite (fun _ => .pure hr) (fun _ => ?_))
  exact yields_mapSegments.bind (fun _ hr => .ite
    (fun _ => .last (fun _ => .last (fun _ => .pure hr)))
    (fun _ => .last (fun _ => .last (fun _ => .pure hc))))

end Spawn

/-- `spawn` keeps to the 512 bytes that it has read exactly if the file is rejected
before its program headers matter, or they lie in these bytes. -/
theorem headers_checked_iff {g : Setting} {path : List U8} {argv : List (List U8)}
    {s : SpawnState} (hnew : s.headers = []) :
    HeadersChecked g path argv s ↔
      ∀ fd bs s₁, (readHeader g path).run s = .ret (.ok (fd, bs)) s₁ →
        HeadersInside (elfBuf bs) := by
  constructor
  · intro h fd bs s₁ hrun
    by_contra hout
    obtain ⟨s', hret⟩ := h.rejects fd bs s₁ hrun hout
    unfold spawn at hret
    rw [Prog.run_bind_ret hrun] at hret
    dsimp only at hret
    have hother : NotNotExec (-eNotExec) := yields_spawnImage s₁ _ s' hret
    exact hother rfl
  · intro h
    refine ⟨?_, fun fd bs s₁ hrun hout => absurd (h fd bs s₁ hrun) hout⟩
    have hstart : LookedInside s := by
      intro o ho
      rw [hnew] at ho
      cases ho
    have hfirst := ends_readHeader (g := g) path s hstart
    unfold spawn
    rw [Prog.run_bind]
    cases hrun : (readHeader g path).run s with
    | exit s' =>
        rw [hrun] at hfirst
        exact hfirst
    | stop s' =>
        rw [hrun] at hfirst
        exact hfirst
    | ret r s' =>
        rw [hrun] at hfirst
        cases r with
        | error e => exact hfirst
        | ok r =>
            obtain ⟨fd, bs⟩ := r
            dsimp only
            exact ends_spawnImage (h fd bs s' hrun) s' hfirst

/-! ## A header behind `elf_buf` -/

/-- A file with one program header, at offset 512. -/
def strayImage : List U8 :=
  [0x7F#8, 0x45#8, 0x4C#8, 0x46#8] ++ List.replicate 24 0#8 ++ [0#8, 2#8, 0#8, 0#8] ++
    List.replicate 12 0#8 ++ [1#8, 0#8] ++ List.replicate 466 0#8

/-- The server has this file. -/
def straySetting : Setting where
  device := fun _ => .other 0
  opened := .ok 5
  opened_neg := fun _ h => nomatch h
  opened_file := fun _ _ => ⟨0, rfl⟩
  read := fun _ _ n => .ok (strayImage.take n)
  slot := some 0x1001
  slot_pos := fun c h => by
    cases h
    decide
  stray := fun _ => none

/-- A caller without descriptors. -/
def freshSpawn : SpawnState where
  caller := ⟨PageTable.empty, none, fun _ _ => 0#8, 6, fun _ => true, 0⟩
  offset := 0#32
  requests := 0
  headers := []
  refused := []

theorem headers_checked_iff_stray : HeadersChecked straySetting [] [] freshSpawn ↔
    ∀ fd bs s₁, (readHeader straySetting []).run freshSpawn = .ret (.ok (fd, bs)) s₁ →
      HeadersInside (elfBuf bs) := headers_checked_iff rfl

theorem straySetting_header : ∃ fd s₁,
    (readHeader straySetting []).run freshSpawn = .ret (.ok (fd, strayImage)) s₁ := by
  have h : (match (readHeader straySetting []).run freshSpawn with
      | .ret (.ok (_, bs)) _ => decide (bs = strayImage)
      | _ => false) = true := by decide +kernel
  cases hrun : (readHeader straySetting []).run freshSpawn with
  | exit s' => simp [hrun] at h
  | stop s' => simp [hrun] at h
  | ret r s' =>
      rw [hrun] at h
      cases r with
      | error e => simp at h
      | ok r =>
          obtain ⟨fd, bs⟩ := r
          rw [of_decide_eq_true h]
          exact ⟨fd, s', rfl⟩

/-- The program header of this file is taken from behind `elf_buf`. -/
theorem not_headers_checked : ¬ ∀ (g : Setting) (path : List U8) (argv : List (List U8))
    (s : SpawnState), s.headers = [] → HeadersChecked g path argv s := by
  intro hall
  obtain ⟨fd, s₁, hrun⟩ := straySetting_header
  have hinside : ¬ HeadersInside (elfBuf strayImage) := by
    intro h
    exact absurd (h 0 (by decide +kernel)) (by decide +kernel)
  obtain ⟨s', hret⟩ := (hall straySetting [] [] freshSpawn rfl).rejects fd _ s₁ hrun hinside
  unfold spawn at hret
  rw [Prog.run_bind_ret hrun] at hret
  dsimp only at hret
  have hother : NotNotExec (-eNotExec) := yields_spawnImage s₁ _ s' hret
  exact hother rfl

end Jos.User

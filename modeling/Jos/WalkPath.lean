import Jos.FormattedDisk
import Mathlib.Data.List.TakeWhile

/-!
# What `walk_path` finds

`resolve` splits a path at its slashes and looks the components up one after another.
`walkInto` is `walk_path` with what it stores: its results through the pointers that it
is given, and the characters of `name` and `lastelem`.

* `walkIn_resolve`: the scanner and the walk over the components agree.
-/

namespace Jos

open Programs Bytes Fs

/-- The components of a path. -/
def components (path : List U8) : List (List U8) := (path.splitOn slash).filter (· ≠ [])

/-- The records of a directory, in their order. -/
def records (v : Bytes.Memory) (dir : Nat) : List Nat :=
  (List.range (dirNblocks v dir)).flatMap (fun i =>
    (List.range blkfiles).map (fun j => blkVa ((slotOf dir i).val v) + 256 * j))

/-- The components are looked up one after another, from file `f` of directory `dir` on. -/
def resolve (v : Bytes.Memory) : Option Nat → Nat → List (List U8) → Walked
  | dir, f, [] => .found dir f
  | _, f, name :: names =>
      if maxnamelen ≤ name.length then .fails .badPath
      else if word v (fTypeVa f) ≠ ftypeDir then .fails .notFound
      else match (records v f).find? (fun g => NameAt v g name) with
        | some g => resolve v (some f) g names
        | none => if names = [] then .missing f name else .fails .notFound

/-! ## The stores of `walk_path` -/

/-- The arrays of `MAXNAMELEN` characters: `name`, and `lastelem` of the caller. -/
inductive NameBuffer where
  | name
  | lastelem
deriving DecidableEq

/-- The file server, `*pdir`, `*pf`, the two arrays, and where was stored in them. -/
structure WalkState where
  fs : Fs
  pdir : Option Nat
  pf : Option Nat
  chars : NameBuffer → Bytes.Memory
  stores : List (NameBuffer × Nat)

def onFs {α : Type} (m : FsProg α) : Prog WalkState α :=
  m.zoom (fun s => s.fs) (fun t s => { s with fs := t })

def storeChar (buf : NameBuffer) (k : Nat) (c : U8) : Prog WalkState Unit :=
  Prog.modify (fun s => { s with
    chars := Function.update s.chars buf (Function.update (s.chars buf) k c)
    stores := s.stores ++ [(buf, k)] })

def storeChars (buf : NameBuffer) : Nat → List U8 → Prog WalkState Unit
  | _, [] => pure ()
  | k, c :: cs => do
      storeChar buf k c
      storeChars buf (k + 1) cs

def setResult (pdir pf : Option Nat) : Prog WalkState Unit :=
  Prog.modify (fun s => { s with pdir := pdir, pf := pf })

/-- The loop of `walk_path`, as `walkFrom` has it. -/
def walkInto (dir : Option Nat) (f : Nat) : Nat → List U8 → Prog WalkState (FsResult Unit)
  | 0, _ => do
      setResult dir (some f)
      pure (.ok ())
  | _ + 1, [] => do
      setResult dir (some f)
      pure (.ok ())
  | n + 1, path => do
      let name := path.takeWhile (· ≠ slash)
      if maxnamelen ≤ name.length then pure (.error .badPath)
      else do
        storeChars .name 0 (name ++ [0#8])
        let rest := skipSlash (path.dropWhile (· ≠ slash))
        let type ← onFs (loadWord (fTypeVa f))
        if type ≠ ftypeDir then pure (.error .notFound)
        else do
          let r ← onFs (dirLookup f name)
          match r with
          | .ok g => walkInto (some f) g n rest
          | .error e => do
              Prog.when (e = .notFound ∧ rest = []) (do
                setResult (some f) none
                -- `strcpy` of `name`
                storeChars .lastelem 0 (name ++ [0#8]))
              pure (.error e)

/-- `walk_path`, with places for all its results. -/
def walkPathInto (path : List U8) : Prog WalkState (FsResult Unit) := do
  storeChar .name 0 0#8
  setResult none none
  walkInto none rootVa path.length (skipSlash path)

/-- The stores go to the arrays. -/
def StoresInside (s : WalkState) : Prop := ∀ x, x ∈ s.stores → x.2 < maxnamelen

/-- What `walk_path` returns, and leaves in `*pdir`, `*pf` and `lastelem`. -/
def WalkLeaves (s s' : WalkState) (r : FsResult Unit) : Walked → Prop
  | .found dir f => r = .ok () ∧ s'.pdir = dir ∧ s'.pf = some f ∧
      s'.chars .lastelem = s.chars .lastelem
  | .missing dir name => r = .error .notFound ∧ s'.pdir = some dir ∧ s'.pf = none ∧
      NameAt (s'.chars .lastelem) 0 name
  | .fails e => r = .error e ∧ s'.pdir = none ∧ s'.pf = none ∧
      s'.chars .lastelem = s.chars .lastelem

section Resolve

variable {v : Bytes.Memory} {f dir i n : Nat} {name path : List U8}

/-! ## Components -/

theorem components_slash : components (slash :: path) = components path := by
  unfold components
  rw [show slash :: path = [] ++ slash :: path from rfl, List.splitOn_append_cons_self_of_not_mem
    (List.not_mem_nil), List.filter_cons_of_neg (by simp)]

theorem components_skipSlash : components (skipSlash path) = components path := by
  induction path with
  | nil => rfl
  | cons c cs ih =>
      unfold skipSlash
      by_cases hc : c = slash
      · rw [if_pos hc, ih, hc, components_slash]
      · rw [if_neg hc]

theorem skipSlash_length (path : List U8) : (skipSlash path).length ≤ path.length := by
  induction path with
  | nil => exact Nat.le_refl 0
  | cons c cs ih =>
      unfold skipSlash
      split
      · exact ih.trans (Nat.le_succ _)
      · exact Nat.le_refl _

theorem components_nil : components [] = [] := by
  unfold components
  rw [List.splitOn_nil]
  rfl

theorem dropWhile_slash (path : List U8) :
    path.dropWhile (· ≠ slash) = [] ∨ ∃ ds, path.dropWhile (· ≠ slash) = slash :: ds := by
  induction path with
  | nil => exact Or.inl rfl
  | cons c cs ih =>
      by_cases hc : c = slash
      · subst hc
        exact Or.inr ⟨cs, by rw [List.dropWhile_cons_of_neg (by simp)]⟩
      · rwa [List.dropWhile_cons_of_pos (by simpa using hc)]

/-- The first component goes up to the first slash. -/
theorem components_cons {c : U8} {cs : List U8} (hc : c ≠ slash) :
    components (c :: cs) = (c :: cs).takeWhile (· ≠ slash) ::
      components (skipSlash ((c :: cs).dropWhile (· ≠ slash))) := by
  have hne : (c :: cs).takeWhile (· ≠ slash) ≠ [] := by
    rw [List.takeWhile_cons_of_pos (by simpa using hc)]
    simp
  have hno : slash ∉ (c :: cs).takeWhile (· ≠ slash) := by
    intro hmem
    have hslash := List.mem_takeWhile_imp hmem
    simp at hslash
  have hsplit := List.takeWhile_append_dropWhile (p := (· ≠ slash)) (l := c :: cs)
  have hstop := dropWhile_slash (c :: cs)
  rw [components_skipSlash]
  generalize (c :: cs).takeWhile (· ≠ slash) = first at *
  generalize (c :: cs).dropWhile (· ≠ slash) = rest at *
  rw [← hsplit]
  cases rest with
  | nil =>
      rw [components_nil]
      unfold components
      rw [List.append_nil, List.splitOn_eq_singleton hno,
        List.filter_cons_of_pos (by simpa using hne)]
      rfl
  | cons d ds =>
      obtain ⟨_, hd⟩ := hstop.resolve_left (List.cons_ne_nil d ds)
      cases hd
      rw [components_slash]
      unfold components
      rw [List.splitOn_append_cons_self_of_not_mem hno,
        List.filter_cons_of_pos (by simpa using hne)]

/-! ## The walk -/

theorem findIn_eq : findIn v name f n =
    ((List.range n).map (fun j => f + 256 * j)).find? (fun g => NameAt v g name) := by
  induction n generalizing f with
  | zero => rfl
  | succ n ih =>
      have hrest : ((List.range n).map Nat.succ).map (fun j => f + 256 * j) =
          (List.range n).map (fun j => f + 256 + 256 * j) := by
        rw [List.map_map]
        refine List.map_congr_left (fun j _ => ?_)
        simp only [Function.comp, Nat.succ_eq_add_one]
        omega
      unfold findIn
      rw [List.range_succ_eq_map, List.map_cons, hrest, List.find?_cons, ih]
      by_cases hname : NameAt v f name
      · simp [hname]
      · simp [hname]

theorem scan_eq {find : Nat → Option Nat} {blocks : Nat → List Nat} {is : Nat → Bool}
    (hfind : ∀ k, find (blkVa ((slotOf dir k).val v)) = (blocks k).find? is) :
    scan v find dir i n = ((List.range' i n).flatMap blocks).find? is := by
  induction n generalizing i with
  | zero => rfl
  | succ n ih =>
      unfold scan
      rw [List.range'_succ, List.flatMap_cons, List.find?_append, hfind, ih]
      cases (blocks i).find? is with
      | none => rfl
      | some f => rfl

/-- A lookup finds the first record with the name. -/
theorem lookup_eq : lookup v dir name = (records v dir).find? (fun g => NameAt v g name) := by
  have hfind : ∀ k, (fun blk => findIn v name blk blkfiles) (blkVa ((slotOf dir k).val v)) =
      ((List.range blkfiles).map (fun j => blkVa ((slotOf dir k).val v) + 256 * j)).find?
        (fun g => NameAt v g name) := fun k => findIn_eq
  unfold lookup records
  rw [List.range_eq_range' (n := dirNblocks v dir)]
  exact scan_eq hfind

/-- The scanner splits the path at its slashes. -/
theorem walkIn_resolve {dir : Option Nat} (hlen : path.length ≤ n)
    (hhead : ∀ c cs, path = c :: cs → c ≠ slash) :
    walkIn v dir f n path = resolve v dir f (components path) := by
  induction n generalizing dir f path with
  | zero =>
      rw [List.length_eq_zero_iff.mp (Nat.le_zero.mp hlen), components_nil]
      rfl
  | succ n ih =>
      cases path with
      | nil =>
          rw [components_nil]
          rfl
      | cons c cs =>
          have hc := hhead c cs rfl
          have hshorter : (skipSlash ((c :: cs).dropWhile (· ≠ slash))).length ≤ n := by
            have hdrop := (List.dropWhile_sublist (· ≠ slash) (l := cs)).length_le
            rw [List.dropWhile_cons_of_pos (by simpa using hc)]
            exact (skipSlash_length _).trans (hdrop.trans (Nat.le_of_succ_le_succ hlen))
          have hlast : components (skipSlash ((c :: cs).dropWhile (· ≠ slash))) = [] ↔
              skipSlash ((c :: cs).dropWhile (· ≠ slash)) = [] := by
            constructor
            · intro hnil
              cases hrest : skipSlash ((c :: cs).dropWhile (· ≠ slash)) with
              | nil => rfl
              | cons d ds =>
                  rw [hrest, components_cons (skipSlash_head hrest)] at hnil
                  cases hnil
            · intro hnil
              rw [hnil, components_nil]
          have hnext := fun (g : Nat) => @ih g _ (some f) hshorter
            (fun _ _ h => skipSlash_head h)
          rw [components_cons hc]
          unfold walkIn resolve
          dsimp only
          rw [← lookup_eq]
          generalize (c :: cs).takeWhile (· ≠ slash) = name
          split
          · rfl
          split
          · rfl
          cases lookup v f name with
          | none => simp only [hlast]
          | some g => exact hnext g

/-- The directory is there and only the last component is not in it. -/
structure LastMissing (v : Bytes.Memory) (dir : Option Nat) (f : Nat)
    (names : List (List U8)) (d : Nat) (name : List U8) : Prop where
  parent : ∃ init dir', names = init ++ [name] ∧ resolve v dir f init = .found dir' d
  isDir : IsDir v d
  short : name.length < maxnamelen
  absent : lookup v d name = none

theorem resolve_missing_iff (v : Bytes.Memory) (dir : Option Nat) (f : Nat) (names : List (List U8))
    (d : Nat) (name : List U8) :
    resolve v dir f names = .missing d name ↔ LastMissing v dir f names d name := by
  induction names generalizing dir f with
  | nil =>
      constructor
      · intro h
        cases h
      · rintro ⟨⟨init, dir', hnames, -⟩, -, -, -⟩
        simp at hnames
  | cons c cs ih =>
      have hstep : ∀ rest, resolve v dir f (c :: rest) =
          if maxnamelen ≤ c.length then .fails .badPath
          else if word v (fTypeVa f) ≠ ftypeDir then .fails .notFound
          else match lookup v f c with
            | some g => resolve v (some f) g rest
            | none => if rest = [] then .missing f c else .fails .notFound := by
        intro rest
        rw [lookup_eq]
        rfl
      constructor
      · intro h
        rw [hstep] at h
        split at h
        · cases h
        rename_i hshort
        split at h
        · cases h
        rename_i htype
        cases hlook : lookup v f c with
        | none =>
            rw [hlook] at h
            dsimp only at h
            split at h
            · rename_i hlast
              cases h
              exact ⟨⟨[], dir, by rw [hlast]; rfl, rfl⟩, not_not.mp htype, Nat.lt_of_not_le hshort,
                hlook⟩
            · cases h
        | some g =>
            rw [hlook] at h
            obtain ⟨⟨init, dir', hnames, hfound⟩, hdir, hlen, habsent⟩ := (ih (some f) g).mp h
            refine ⟨⟨c :: init, dir', by rw [hnames]; rfl, ?_⟩, hdir, hlen, habsent⟩
            rw [hstep, if_neg hshort, if_neg htype, hlook]
            exact hfound
      · rintro ⟨⟨init, dir', hnames, hfound⟩, hdir, hlen, habsent⟩
        cases init with
        | nil =>
            cases hnames
            cases hfound
            have htype : ¬ word v (fTypeVa d) ≠ ftypeDir := not_not.mpr hdir
            rw [hstep, if_neg (Nat.not_le.mpr hlen), if_neg htype, habsent]
            exact if_pos rfl
        | cons c' init =>
            cases hnames
            rw [hstep] at hfound
            split at hfound
            · cases hfound
            rename_i hshort
            split at hfound
            · cases hfound
            rename_i htype
            cases hlook : lookup v f c with
            | none =>
                rw [hlook] at hfound
                dsimp only at hfound
                split at hfound <;> cases hfound
            | some g =>
                rw [hlook] at hfound
                rw [hstep, if_neg hshort, if_neg htype, hlook]
                exact (ih (some f) g).mpr ⟨⟨init, dir', rfl, hfound⟩, hdir, hlen, habsent⟩

end Resolve

/-! ## The walk with its stores -/

section Stores

variable {s : WalkState} {buf : NameBuffer} {dir : Option Nat} {f k n : Nat}
  {cs path : List U8}

theorem storeChars_returns (hin : StoresInside s) (hlen : k + cs.length ≤ maxnamelen) :
    Returns (storeChars buf k cs) (fun _ s' => StoresInside s' ∧ s'.fs = s.fs ∧
      s'.pdir = s.pdir ∧ s'.pf = s.pf ∧ s'.chars buf = setBytes (s.chars buf) k cs ∧
      ∀ buf', buf' ≠ buf → s'.chars buf' = s.chars buf') s := by
  induction cs generalizing k s with
  | nil => exact ⟨hin, rfl, rfl, rfl, setBytes_nil.symm, fun _ _ => rfl⟩
  | cons c cs ih =>
      rw [List.length_cons] at hlen
      unfold storeChars storeChar
      refine wp_modify_bind.mpr ?_
      refine Returns.mono (ih (k := k + 1) ?_ (by omega)) ?_
      · intro x hx
        rcases List.mem_append.mp hx with hold | hnew
        · exact hin x hold
        · rw [List.mem_singleton.mp hnew]
          show k < maxnamelen
          omega
      · rintro - s' ⟨hin', hfs, hpdir, hpf, hchars, hother⟩
        refine ⟨hin', hfs, hpdir, hpf, ?_, fun buf' hne => ?_⟩
        · rw [hchars, ← setBytes_cons]
          dsimp only
          rw [Function.update_self]
        · rw [hother buf' hne]
          exact Function.update_of_ne hne _ _

theorem WalkLeaves.congr {s₁ s' : WalkState} {r : FsResult Unit} {x : Walked}
    (h : WalkLeaves s₁ s' r x) (hsame : s₁.chars .lastelem = s.chars .lastelem) :
    WalkLeaves s s' r x := by
  cases x with
  | found dir f => exact ⟨h.1, h.2.1, h.2.2.1, h.2.2.2.trans hsame⟩
  | missing dir name => exact h
  | fails e => exact ⟨h.1, h.2.1, h.2.2.1, h.2.2.2.trans hsame⟩

/-- The walk with its stores goes as the walk without. -/
theorem walkInto_returns {Q : Walked → Fs → Prop}
    (hwalk : Returns (walkFrom dir f n path) Q s.fs) (hpdir : s.pdir = none)
    (hpf : s.pf = none) (hin : StoresInside s) :
    Returns (walkInto dir f n path) (fun r s' => StoresInside s' ∧
      ∃ x, Q x s'.fs ∧ WalkLeaves s s' r x) s := by
  induction n generalizing dir f path s with
  | zero =>
      unfold walkFrom at hwalk
      unfold walkInto
      exact ⟨hin, _, hwalk, rfl, rfl, rfl, rfl⟩
  | succ n ih =>
      cases path with
      | nil =>
          unfold walkFrom at hwalk
          unfold walkInto
          exact ⟨hin, _, hwalk, rfl, rfl, rfl, rfl⟩
      | cons c cs =>
          unfold walkFrom at hwalk
          unfold walkInto
          dsimp only at hwalk ⊢
          generalize (c :: cs).takeWhile (· ≠ slash) = name at hwalk ⊢
          generalize skipSlash ((c :: cs).dropWhile (· ≠ slash)) = rest at hwalk ⊢
          by_cases hlong : maxnamelen ≤ name.length
          · rw [if_pos hlong] at hwalk ⊢
            exact ⟨hin, _, hwalk, rfl, hpdir, hpf, rfl⟩
          rw [if_neg hlong] at hwalk ⊢
          have hfits : 0 + (name ++ [0#8]).length ≤ maxnamelen := by
            rw [List.length_append, List.length_singleton]
            omega
          refine returns_bind (storeChars_returns hin hfits) ?_
          rintro - s₁ ⟨hin₁, hfs₁, hpdir₁, hpf₁, -, hother₁⟩
          have hsame : s₁.chars .lastelem = s.chars .lastelem := hother₁ _ (by decide)
          rw [hpdir] at hpdir₁
          rw [hpf] at hpf₁
          obtain ⟨x, t, hrun, hQ⟩ := returns_iff.mp hwalk
          obtain ⟨type, t₁, hload, hrest⟩ := Prog.bind_ret_iff.mp hrun
          rw [← hfs₁] at hload
          refine wp_ret_bind (Prog.run_zoom_ret hload) ?_
          by_cases htype : type ≠ ftypeDir
          · rw [if_pos htype] at hrest ⊢
            cases hrest
            exact ⟨hin₁, _, hQ, rfl, hpdir₁, hpf₁, hsame⟩
          rw [if_neg htype] at hrest ⊢
          obtain ⟨r, t₂, hlook, hrest⟩ := Prog.bind_ret_iff.mp hrest
          refine wp_ret_bind (Prog.run_zoom_ret hlook) ?_
          cases r with
          | ok g =>
              refine Returns.mono (ih (returns_iff.mpr ⟨x, t, hrest, hQ⟩) hpdir₁ hpf₁ hin₁) ?_
              rintro r s' ⟨hin', x', hx', hleaves⟩
              exact ⟨hin', x', hx', hleaves.congr hsame⟩
          | error e =>
              dsimp only at hrest ⊢
              by_cases hlast : e = .notFound ∧ rest = []
              · rw [if_pos hlast] at hrest
                cases hrest
                rw [hlast.1]
                unfold Prog.when
                rw [if_pos ⟨rfl, hlast.2⟩]
                unfold setResult
                rw [Prog.bind_assoc]
                refine wp_modify_bind.mpr
                  (returns_bind (storeChars_returns (by exact hin₁) hfits) ?_)
                rintro - s₂ ⟨hin₂, hfs₂, hpdir₂, hpf₂, hchars₂, -⟩
                refine ⟨hin₂, .missing f name, ?_, rfl, hpdir₂, hpf₂, ?_⟩
                · rw [hfs₂]
                  exact hQ
                · unfold NameAt
                  rw [hchars₂, ← List.length_singleton (a := (0#8 : U8)), ← List.length_append]
                  exact bytesAt_setBytes_self
              · rw [if_neg hlast] at hrest
                cases hrest
                unfold Prog.when
                rw [if_neg hlast]
                exact ⟨hin₁, _, hQ, rfl, hpdir₁, hpf₁, hsame⟩

end Stores

/-- `walk_path` finds what its components lead to, stores only in its arrays, and gives
out a directory and a name exactly if there is only a last name to add. -/
theorem walk_path_resolves {s : WalkState} {path : List U8} (hs : Ready s.fs)
    (hused : DirsUsed s.fs.view) (hdirs : DirsOk s.fs.view) (hnul : 0#8 ∉ path)
    (hnew : s.stores = []) :
    Returns (walkPathInto path) (fun r s' => StoresInside s' ∧ Loads s.fs s'.fs ∧
      WalkLeaves s s' r (resolve s.fs.view none rootVa (components path)) ∧
      (r ≠ .ok () → ∀ d, s'.pdir = some d ↔
        ∃ name, LastMissing s.fs.view none rootVa (components path) d name)) s := by
  have hwalk := walkPath_returns hs hused hdirs hnul
  have hsame : walk s.fs.view path = resolve s.fs.view none rootVa (components path) := by
    unfold walk
    rw [walkIn_resolve (skipSlash_length path) (fun _ _ h => skipSlash_head h),
      components_skipSlash]
  unfold walkPathInto storeChar setResult
  refine wp_modify_bind.mpr (wp_modify_bind.mpr ?_)
  refine Returns.mono (walkInto_returns hwalk rfl rfl ?_) ?_
  · intro x hx
    have hone : x = (.name, 0) := by simpa [hnew] using hx
    rw [hone]
    decide
  · rintro r s' ⟨hin, x, ⟨hloads, rfl⟩, hleaves⟩
    rw [hsame] at hleaves
    refine ⟨hin, hloads, hleaves.congr rfl, fun hr d => ?_⟩
    have hmissing := resolve_missing_iff s.fs.view none rootVa (components path) d
    cases hres : resolve s.fs.view none rootVa (components path) with
    | found dir f =>
        rw [hres] at hleaves
        exact absurd hleaves.1 hr
    | missing d' name' =>
        rw [hres] at hleaves
        rw [hleaves.2.1]
        constructor
        · intro hd
          cases hd
          exact ⟨name', (hmissing name').mp hres⟩
        · rintro ⟨name, hlast⟩
          have hsame' := (hmissing name).mpr hlast
          rw [hres] at hsame'
          cases hsame'
          rfl
    | fails e =>
        rw [hres] at hleaves
        rw [hleaves.2.1]
        constructor
        · intro hd
          cases hd
        · rintro ⟨name, hlast⟩
          have hsame' := (hmissing name).mpr hlast
          rw [hres] at hsame'
          cases hsame'

/-- Nothing has been looked up yet. -/
def threeWalk : WalkState := ⟨threeFs, none, none, fun _ _ => 0#8, []⟩

theorem walk_path_resolves_three :
    Returns (walkPathInto [slash, 97#8]) (fun r s' => StoresInside s' ∧
      Loads threeWalk.fs s'.fs ∧
      WalkLeaves threeWalk s' r
        (resolve threeWalk.fs.view none rootVa (components [slash, 97#8])) ∧
      (r ≠ .ok () → ∀ d, s'.pdir = some d ↔ ∃ name,
        LastMissing threeWalk.fs.view none rootVa (components [slash, 97#8]) d name))
      threeWalk := by
  obtain ⟨_, _, _, himage⟩ := threeFs_formatted.image (by decide)
  exact walk_path_resolves threeFs_mount.ready threeFs_mount.owned.dirsUsed himage.dirsOk
    (by decide) rfl

end Jos

import Jos.FileFrames

/-!
# Looking up names and reading files

On a disk whose blocks are `Owned`, looking up a name and reading a file only load
blocks that are in use, and so they return.  `lookup` and `walk` say what they find,
without the block cache; a directory has to have all of its blocks.
-/

namespace Jos

open Programs Bytes Fs

/-- The first of `n` records with a name. -/
def findIn (v : Bytes.Memory) (name : List U8) (f : Nat) : Nat → Option Nat
  | 0 => none
  | n + 1 => if NameAt v f name then some f else findIn v name (f + 256) n

/-- The first of `n` records without a name. -/
def freeIn (v : Bytes.Memory) (f : Nat) : Nat → Option Nat
  | 0 => none
  | n + 1 => if v f = 0#8 then some f else freeIn v (f + 256) n

/-- What is found first in the blocks of a directory, from block `i` on. -/
def scan (v : Bytes.Memory) (find : Nat → Option Nat) (dir i : Nat) : Nat → Option Nat
  | 0 => none
  | n + 1 => match find (blkVa ((slotOf dir i).val v)) with
    | some f => some f
    | none => scan v find dir (i + 1) n

/-- The file of a name in a directory. -/
def lookup (v : Bytes.Memory) (dir : Nat) (name : List U8) : Option Nat :=
  scan v (fun blk => findIn v name blk blkfiles) dir 0 (dirNblocks v dir)

/-- What `walk_path` finds, from file `f` on. -/
def walkIn (v : Bytes.Memory) (dir : Option Nat) (f : Nat) : Nat → List U8 → Walked
  | 0, _ => .found dir f
  | _ + 1, [] => .found dir f
  | n + 1, path =>
      let name := path.takeWhile (· ≠ slash)
      let rest := skipSlash (path.dropWhile (· ≠ slash))
      if maxnamelen ≤ name.length then .fails .badPath
      else if word v (fTypeVa f) ≠ ftypeDir then .fails .notFound
      else match lookup v f name with
        | some g => walkIn v (some f) g n rest
        | none => if rest = [] then .missing f name else .fails .notFound

/-- What `walk_path` finds. -/
def walk (v : Bytes.Memory) (path : List U8) : Walked :=
  walkIn v none rootVa path.length (skipSlash path)

/-- What `file_open` returns. -/
def opened (v : Bytes.Memory) (path : List U8) : FsResult Nat :=
  match walk v path with
  | .found _ f => .ok f
  | .missing _ _ => .error .notFound
  | .fails e => .error e

/-- A directory has whole blocks, and has them all. -/
structure DirOk (v : Bytes.Memory) (dir : Nat) : Prop where
  whole : (word v (fSizeVa dir)).srem 4096#32 = 0#32
  blocks : HasBlocks v dir (dirNblocks v dir)

/-- The blocks that directories have are on the disk and in use. -/
structure DirsUsed (v : Bytes.Memory) : Prop where
  used : ∀ dir i b, Reach v dir → IsDir v dir → i < dirNblocks v dir →
    (slotOf dir i).Has v b → InUse v b
  indirect : ∀ dir, Reach v dir → IsDir v dir → ndirect < dirNblocks v dir →
    indirectOf v dir ≠ 0 → InUse v (indirectOf v dir)

section Slots

variable {s s' : Fs} {v : Bytes.Memory} {f i b x : Nat} {p : Slot}

theorem Owned.dirsUsed (h : Owned v) : DirsUsed v where
  used dir i b hdir _ _ hhas := by
    have hholds : Holds v (slotOf dir i) b := ⟨by rw [slotOf_file]; exact hdir, hhas⟩
    exact ⟨(h.range _ b hholds).2, h.used _ b hholds⟩
  indirect dir hdir _ _ hne := by
    have hholds : Holds v (.indirect dir) (indirectOf v dir) := ⟨hdir, trivial, rfl, hne⟩
    exact ⟨(h.range _ _ hholds).2, h.used _ _ hholds⟩

theorem blockOf_blkVa (hle : blkVa b ≤ x) (hlt : x < blkVa b + 4096) : blockOf x = b := by
  unfold blockOf
  unfold blkVa blksize diskmap at *
  omega

theorem Reach.aligned (hf : Reach v f) : f % 4 = 0 := by
  rcases hf.shape with rfl | ⟨b, j, -, -, -, rfl⟩
  · decide
  · unfold fileVa blkVa diskmap blksize
    omega

theorem Live.aligned (hp : Live v p) : p.va v % 4 = 0 := by
  rcases hp.cases with ⟨f, k, hf, -, hva, -⟩ | ⟨f, j, -, -, -, hva⟩
  · have hfour := hf.aligned
    omega
  · rw [hva]
    unfold blkVa diskmap blksize
    omega

/-- The bytes of a block that is in use. -/
theorem InUse.bytes_fine (h : InUse s.view b) (hle : blkVa b ≤ x) (hlt : x < blkVa b + 4096) :
    Fine s x := by
  refine InUse.fine ?_
  rw [blockOf_blkVa hle hlt]
  exact h

/-- A record that can be reached can be used. -/
theorem DirsUsed.fine (hs : Ready s) (h : DirsUsed s.view) (hf : Reach s.view f) (hle : f ≤ x)
    (hlt : x < f + 256) : Fine s x := by
  rcases hf.shape with rfl | ⟨b, j, hb, hj, -, rfl⟩
  · refine fun _ => Or.inl ?_
    have hblock : blockOf x = 1 := by
      unfold blockOf
      unfold rootVa superVa diskmap blksize at *
      omega
    rw [hblock]
    exact hs.super
  · obtain ⟨dir, i, htype, hi, hholds⟩ := hb.holds
    have hdir : Reach s.view dir := by
      have hreach := hholds.reach
      rwa [slotOf_file] at hreach
    unfold fileVa blkfiles at *
    exact (h.used dir i b hdir htype hi hholds.has).bytes_fine (by omega) (by omega)

namespace Fs

/-- A field of a record that can be used is loaded. -/
theorem loadWord_record {a : Nat} (hs : Ready s) (hfour : f % 4 = 0)
    (hrecord : ∀ x, f ≤ x → x < f + 256 → Fine s x) (ha : a % 4 = 0) (hle : a + 4 ≤ 256) :
    Returns (loadWord (f + a)) (fun w s' => Loads s s' ∧ w = word s.view (f + a)) s :=
  loadWord_returns hs (by omega) (hrecord _ (by omega) (by omega))

/-- `file_block_walk` to a slot that there is, of a record that can be used. -/
theorem fileBlockWalk_exists {alloc : Bool} (hs : Ready s) (hfour : f % 4 = 0)
    (hrecord : ∀ x, f ≤ x → x < f + 256 → Fine s x)
    (hindirect : ndirect ≤ i → indirectOf s.view f < diskBlocks s.view)
    (hexist : (slotOf f i).Exists s.view) :
    Returns (fileBlockWalk f i alloc)
      (fun r s' => Loads s s' ∧ r = .ok ((slotOf f i).va s.view)) s := by
  unfold fileBlockWalk
  by_cases hdirect : i < ndirect
  · have hslot : slotOf f i = .direct f i := if_pos hdirect
    rw [if_neg (by omega), if_pos hdirect, hslot]
    exact ⟨Loads.refl, rfl⟩
  · have hslot : slotOf f i = .entry f (i - ndirect) := if_neg hdirect
    rw [hslot] at hexist ⊢
    have hlt : i - ndirect < nindirect := hexist.2
    rw [if_neg (by omega), if_neg hdirect]
    refine returns_bind (loadWord_record hs hfour hrecord (a := 176) (by decide) (by decide))
      (fun w s₁ h₁ => ?_)
    obtain ⟨hloads, rfl⟩ := h₁
    have hne : word s.view (f + 176) ≠ 0#32 := by
      intro hzero
      refine hexist.1 ?_
      show (word s.view (f + 176)).toNat = 0
      rw [hzero]
      rfl
    rw [if_pos hne]
    refine returns_bind (diskaddr_returns (hs.loads hloads) hexist.1 ?_) (fun r s₂ h₂ => ?_)
    · rw [hloads.view]
      exact hindirect (by omega)
    · obtain ⟨rfl, rfl⟩ := h₂
      exact ⟨hloads, rfl⟩

/-- `file_get_block` of a block that is in a slot, if both can be used. -/
theorem fileGetBlock_used (hs : Ready s) (hfour : f % 4 = 0)
    (hrecord : ∀ x, f ≤ x → x < f + 256 → Fine s x)
    (hindirect : ndirect ≤ i → indirectOf s.view f < diskBlocks s.view)
    (hslot : (slotOf f i).va s.view % 4 = 0 ∧ Fine s ((slotOf f i).va s.view))
    (hhas : (slotOf f i).Has s.view b) (hlt : b < diskBlocks s.view) :
    Returns (fileGetBlock f i) (fun r s' => Loads s s' ∧ r = .ok (blkVa b)) s := by
  unfold fileGetBlock
  refine returns_bind (fileBlockWalk_exists hs hfour hrecord hindirect hhas.exist)
    (fun r s₁ h₁ => ?_)
  obtain ⟨hloads, rfl⟩ := h₁
  have hs₁ := hs.loads hloads
  refine returns_bind (loadWord_returns hs₁ hslot.1 (hslot.2.loads hloads)) (fun w s₂ h₂ => ?_)
  obtain ⟨hloads', rfl⟩ := h₂
  rw [hloads.view]
  have hval : (word s.view ((slotOf f i).va s.view)).toNat = b := hhas.val
  have hne : word s.view ((slotOf f i).va s.view) ≠ 0#32 := by
    intro hzero
    refine hhas.ne ?_
    rw [← hval, hzero]
    rfl
  rw [if_neg hne, hval]
  have hall := hloads.trans hloads'
  refine returns_bind (diskaddr_returns (hs.loads hall) hhas.ne ?_) (fun r s₃ h₃ => ?_)
  · rw [hall.view]
    exact hlt
  · obtain ⟨rfl, rfl⟩ := h₃
    exact ⟨hall, rfl⟩

/-- `file_get_block` in a directory. -/
theorem fileGetBlock_dir (hs : Ready s) (hused : DirsUsed s.view) (hdir : Reach s.view f)
    (htype : IsDir s.view f) (hi : i < dirNblocks s.view f) (hhas : (slotOf f i).Has s.view b) :
    Returns (fileGetBlock f i) (fun r s' => Loads s s' ∧ r = .ok (blkVa b)) s := by
  have hrecord : ∀ x, f ≤ x → x < f + 256 → Fine s x :=
    fun x hle hlt => hused.fine hs hdir hle hlt
  have hfour := hdir.aligned
  by_cases hdirect : i < ndirect
  · have hslot : slotOf f i = .direct f i := if_pos hdirect
    refine fileGetBlock_used hs hfour hrecord (fun hle => absurd hdirect (Nat.not_lt.mpr hle)) ?_
      hhas (hused.used f i b hdir htype hi hhas).lt
    have hva : (Slot.direct f i).va s.view = f + 136 + 4 * i := rfl
    rw [hslot, hva]
    unfold ndirect at hdirect
    exact ⟨by omega, hrecord _ (by omega) (by omega)⟩
  · have hslot : slotOf f i = .entry f (i - ndirect) := if_neg hdirect
    have hexist := hhas.exist
    rw [hslot] at hexist
    have hind := hused.indirect f hdir htype (by omega) hexist.1
    refine fileGetBlock_used hs hfour hrecord (fun _ => hind.lt) ?_ hhas
      (hused.used f i b hdir htype hi hhas).lt
    rw [hslot]
    have hj : i - ndirect < nindirect := hexist.2
    unfold nindirect at hj
    refine ⟨?_, hind.bytes_fine (Nat.le_add_right _ _) ?_⟩
    · show (blkVa (indirectOf s.view f) + 4 * (i - ndirect)) % 4 = 0
      unfold blkVa diskmap blksize
      omega
    · show blkVa (indirectOf s.view f) + 4 * (i - ndirect) < _
      omega

theorem indirect_lt (howned : Owned s.view) (hf : Reach s.view f)
    (hexist : (slotOf f i).Exists s.view) (hi : ndirect ≤ i) :
    indirectOf s.view f < diskBlocks s.view := by
  have hslot : slotOf f i = .entry f (i - ndirect) := if_neg (Nat.not_lt.mpr hi)
  rw [hslot] at hexist
  have hblock : Holds s.view (.indirect f) (indirectOf s.view f) :=
    ⟨hf, trivial, rfl, hexist.1⟩
  exact (howned.range _ _ hblock).2

end Fs

variable (hs : Ready s) (howned : Owned s.view)

include howned

/-- A block that is held can be used. -/
theorem Holds.fine (hp : Holds s.view p b) (hle : blkVa b ≤ x) (hlt : x < blkVa b + 4096) :
    Fine s x := by
  refine InUse.fine ?_
  rw [blockOf_blkVa hle hlt]
  exact ⟨(howned.range p b hp).2, howned.used p b hp⟩

include hs

theorem Reach.fine (hf : Reach s.view f) (hle : f ≤ x) (hlt : x < f + 256) : Fine s x :=
  howned.dirsUsed.fine hs hf hle hlt

theorem Live.fine (hp : Live s.view p) : Fine s (p.va s.view) := by
  rcases hp.cases with ⟨f, k, hf, hk, hva, -⟩ | ⟨f, j, hj, hblock, -, hva⟩
  · exact hf.fine hs howned (by omega) (by omega)
  · exact hblock.fine howned (by omega) (by omega)

namespace Fs

/-- A field of a file is loaded. -/
theorem loadWord_field {a : Nat} (hf : Reach s.view f) (ha : a % 4 = 0) (hle : a + 4 ≤ 256) :
    Returns (loadWord (f + a)) (fun w s' => Loads s s' ∧ w = word s.view (f + a)) s :=
  loadWord_record hs hf.aligned (fun _ => hf.fine hs howned) ha hle

/-- `file_block_walk` to a slot that there is. -/
theorem fileBlockWalk_returns {alloc : Bool} (hf : Reach s.view f)
    (hexist : (slotOf f i).Exists s.view) :
    Returns (fileBlockWalk f i alloc)
      (fun r s' => Loads s s' ∧ r = .ok ((slotOf f i).va s.view)) s :=
  fileBlockWalk_exists hs hf.aligned (fun _ => hf.fine hs howned)
    (indirect_lt howned hf hexist) hexist

/-- `file_get_block` of a block that the file has. -/
theorem fileGetBlock_has (hf : Reach s.view f) (hhas : (slotOf f i).Has s.view b) :
    Returns (fileGetBlock f i) (fun r s' => Loads s s' ∧ r = .ok (blkVa b)) s := by
  have hlive : Live s.view (slotOf f i) := ⟨by rw [slotOf_file]; exact hf, hhas.exist⟩
  have hholds : Holds s.view (slotOf f i) b := ⟨hlive.reach, hhas⟩
  exact fileGetBlock_used hs hf.aligned (fun _ => hf.fine hs howned)
    (indirect_lt howned hf hhas.exist) ⟨hlive.aligned, hlive.fine hs howned⟩ hhas
    (howned.range _ _ hholds).2

end Fs

end Slots

/-! ## Names -/

section Names

variable {s s' : Fs} {v : Bytes.Memory} {f g dir i b n : Nat} {name : List U8}

theorem nameAt_nil : NameAt v f [] ↔ v f = 0#8 := by
  unfold NameAt
  rw [List.length_nil, List.nil_append, bytesAt_cons]
  simp [bytesAt]

theorem nameAt_cons {c : U8} {cs : List U8} :
    NameAt v f (c :: cs) ↔ v f = c ∧ NameAt v (f + 1) cs := by
  unfold NameAt
  rw [List.length_cons, bytesAt_cons, List.cons_append, List.cons.injEq]

/-- A place has one name. -/
theorem nameAt_inj {name' : List U8} (h : NameAt v f name) (h' : NameAt v f name')
    (hnul : 0#8 ∉ name) (hnul' : 0#8 ∉ name') : name = name' := by
  induction name generalizing f name' with
  | nil =>
      rw [nameAt_nil] at h
      cases name' with
      | nil => rfl
      | cons c cs =>
          rw [nameAt_cons, h] at h'
          exact absurd h'.1 (fun hc => hnul' (hc ▸ List.mem_cons_self))
  | cons c cs ih =>
      rw [nameAt_cons] at h
      cases name' with
      | nil =>
          rw [nameAt_nil, h.1] at h'
          exact absurd h' (fun hc => hnul (hc ▸ List.mem_cons_self))
      | cons d ds =>
          rw [nameAt_cons] at h'
          have hcd : c = d := h.1.symm.trans h'.1
          have hrest := ih h.2 h'.2 (fun hm => hnul (List.mem_cons_of_mem _ hm))
            (fun hm => hnul' (List.mem_cons_of_mem _ hm))
          rw [hcd, hrest]

namespace Fs

theorem strEq_returns (hs : Ready s)
    (hfine : ∀ x, f ≤ x → x < f + (name.length + 1) → Fine s x) :
    Returns (strEq f name) (fun r s' => Loads s s' ∧ r = decide (NameAt s.view f name)) s := by
  induction name generalizing f s with
  | nil =>
      refine returns_bind (loadByte_returns hs (hfine f (Nat.le_refl f) (by simp)))
        (fun x s₁ h => ⟨h.1, ?_⟩)
      rw [h.2]
      exact decide_eq_decide.mpr nameAt_nil.symm
  | cons c cs ih =>
      rw [List.length_cons] at hfine
      refine returns_bind (loadByte_returns hs (hfine f (Nat.le_refl f) (by omega)))
        (fun x s₁ h => ?_)
      obtain ⟨hloads, rfl⟩ := h
      refine wp_ite (fun hc => ?_) (fun hc => ⟨hloads, ?_⟩)
      · refine Returns.mono (ih (hs.loads hloads) (fun x hle hlt =>
          (hfine x (by omega) (by omega)).loads hloads)) (fun r s₂ h => ⟨hloads.trans h.1, ?_⟩)
        rw [h.2, hloads.view]
        refine decide_eq_decide.mpr ?_
        rw [nameAt_cons]
        exact ⟨fun h => ⟨hc, h⟩, fun h => h.2⟩
      · refine (decide_eq_false (fun hname => ?_)).symm
        exact hc (nameAt_cons.mp hname).1

theorem findName_returns (hs : Ready s) (hshort : name.length < maxnamelen)
    (hfine : ∀ x, f ≤ x → x < f + 256 * n → Fine s x) :
    Returns (findName name f n) (fun r s' => Loads s s' ∧ r = findIn s.view name f n) s := by
  unfold maxnamelen at hshort
  induction n generalizing f s with
  | zero => exact ⟨Loads.refl, rfl⟩
  | succ n ih =>
      refine returns_bind (strEq_returns hs (fun x hle hlt => hfine x hle (by omega)))
        (fun same s₁ h => ?_)
      obtain ⟨hloads, rfl⟩ := h
      unfold findIn
      refine wp_ite (fun hsame => ⟨hloads, ?_⟩) (fun hsame => ?_)
      · rw [if_pos (of_decide_eq_true hsame)]
      · rw [if_neg (fun h => hsame (decide_eq_true h)), ← hloads.view]
        exact Returns.mono (ih (hs.loads hloads) (fun x hle hlt =>
          (hfine x (by omega) (by omega)).loads hloads)) (fun r s₂ h => ⟨hloads.trans h.1, h.2⟩)

theorem findFree_returns (hs : Ready s) (hfine : ∀ x, f ≤ x → x < f + 256 * n → Fine s x) :
    Returns (findFree f n) (fun r s' => Loads s s' ∧ r = freeIn s.view f n) s := by
  induction n generalizing f s with
  | zero => exact ⟨Loads.refl, rfl⟩
  | succ n ih =>
      refine returns_bind (loadByte_returns hs (hfine f (Nat.le_refl f) (by omega)))
        (fun x s₁ h => ?_)
      obtain ⟨hloads, rfl⟩ := h
      unfold freeIn
      refine wp_ite (fun hzero => ⟨hloads, ?_⟩) (fun hzero => ?_)
      · rw [if_pos hzero]
      · rw [if_neg hzero, ← hloads.view]
        exact Returns.mono (ih (hs.loads hloads) (fun x hle hlt =>
          (hfine x (by omega) (by omega)).loads hloads)) (fun r s₂ h => ⟨hloads.trans h.1, h.2⟩)

/-- The loops over the blocks of a directory, for a search in a block that is known. -/
theorem dirScan_returns (look : Nat → Option Nat) {find : Nat → FsProg (Option Nat)}
    (hs : Ready s) (hused : DirsUsed s.view) (hdir : Reach s.view dir)
    (htype : IsDir s.view dir) (hblocks : HasBlocks s.view dir (i + n))
    (hn : i + n ≤ dirNblocks s.view dir)
    (hfind : ∀ t b, Loads s t → InUse s.view b →
      Returns (find (blkVa b)) (fun r t' => Loads t t' ∧ r = look (blkVa b)) t) :
    Returns (dirScan find dir i n)
      (fun r s' => Loads s s' ∧ r = .ok (scan s.view look dir i n)) s := by
  induction n generalizing i s with
  | zero => exact ⟨Loads.refl, rfl⟩
  | succ n ih =>
      obtain ⟨b, hhas⟩ := hblocks i (by omega)
      have hi : i < dirNblocks s.view dir := by omega
      unfold dirScan
      refine returns_bind (fileGetBlock_dir hs hused hdir htype hi hhas) (fun r s₁ h => ?_)
      obtain ⟨hloads, rfl⟩ := h
      refine returns_bind (hfind s₁ b hloads (hused.used dir i b hdir htype hi hhas))
        (fun r s₂ h => ?_)
      obtain ⟨hloads', rfl⟩ := h
      have hall := hloads.trans hloads'
      unfold scan
      rw [hhas.val]
      cases hlook : look (blkVa b) with
      | some f => exact ⟨hall, rfl⟩
      | none =>
          rw [← hall.view] at hused hdir htype hblocks hn hfind ⊢
          refine Returns.mono (ih (hs.loads hall) hused hdir htype
            (fun k hk => hblocks k (by omega)) (by omega)
            (fun t c ht hc => hfind t c (hall.trans ht) hc)) (fun r s₃ h => ⟨hall.trans h.1, h.2⟩)

theorem dirBlocks_returns (hs : Ready s) (hused : DirsUsed s.view) (hdir : Reach s.view dir)
    (hwhole : (word s.view (fSizeVa dir)).srem 4096#32 = 0#32) :
    Returns (dirBlocks dir) (fun r s' => Loads s s' ∧ r = dirNblocks s.view dir) s := by
  unfold dirBlocks
  refine returns_bind (loadWord_record hs hdir.aligned (fun _ => hused.fine hs hdir) (a := 128)
    (by decide) (by decide)) (fun w s₁ h => ?_)
  obtain ⟨hloads, rfl⟩ := h
  exact (wp_bind _ _ _).mpr (wp_when (fun hbad => absurd hwhole hbad) (fun _ => ⟨hloads, rfl⟩))

/-- `dir_lookup` in a directory that has its blocks. -/
theorem dirLookup_returns (hs : Ready s) (hused : DirsUsed s.view) (hdir : Reach s.view dir)
    (htype : IsDir s.view dir) (hok : DirOk s.view dir) (hshort : name.length < maxnamelen) :
    Returns (dirLookup dir name) (fun r s' => Loads s s' ∧
      r = match lookup s.view dir name with
        | some f => .ok f
        | none => .error .notFound) s := by
  unfold dirLookup
  refine returns_bind (dirBlocks_returns hs hused hdir hok.whole) (fun m s₁ h => ?_)
  obtain ⟨hloads, rfl⟩ := h
  rw [← hloads.view] at hused hdir htype hok ⊢
  have hs₁ := hs.loads hloads
  refine returns_bind (dirScan_returns (fun blk => findIn s₁.view name blk blkfiles)
    hs₁ hused hdir htype (by rw [Nat.zero_add]; exact hok.blocks) (by rw [Nat.zero_add])
    (fun t b ht hb => ?_)) (fun r s₂ h => ?_)
  · rw [← ht.view]
    refine findName_returns (hs₁.loads ht) hshort (fun x hle hlt => ?_)
    unfold blkfiles at hlt
    exact (hb.bytes_fine hle (by omega)).loads ht
  · obtain ⟨hloads', rfl⟩ := h
    have hall := hloads.trans hloads'
    unfold lookup
    cases scan s₁.view (fun blk => findIn s₁.view name blk blkfiles) dir 0
        (dirNblocks s₁.view dir) with
    | none => exact ⟨hall, rfl⟩
    | some f => exact ⟨hall, rfl⟩

end Fs

end Names

/-! ## Paths -/

/-- All directories that can be reached are in order. -/
def DirsOk (v : Bytes.Memory) : Prop := ∀ dir, Reach v dir → IsDir v dir → DirOk v dir

section Paths

variable {s s' : Fs} {v : Bytes.Memory} {f g dir i n : Nat} {name path : List U8}

theorem findIn_some (h : findIn v name f n = some g) :
    ∃ j, j < n ∧ g = f + 256 * j ∧ NameAt v g name := by
  induction n generalizing f with
  | zero => cases h
  | succ n ih =>
      unfold findIn at h
      split at h
      · cases h
        exact ⟨0, by omega, rfl, ‹_›⟩
      · obtain ⟨j, hj, rfl, hname⟩ := ih h
        exact ⟨j + 1, by omega, by omega, hname⟩

theorem scan_some {find : Nat → Option Nat} (h : scan v find dir i n = some g) :
    ∃ k, i ≤ k ∧ k < i + n ∧ find (blkVa ((slotOf dir k).val v)) = some g := by
  induction n generalizing i with
  | zero => cases h
  | succ n ih =>
      unfold scan at h
      cases hfind : find (blkVa ((slotOf dir i).val v)) with
      | some f =>
          rw [hfind] at h
          cases h
          exact ⟨i, Nat.le_refl i, by omega, hfind⟩
      | none =>
          rw [hfind] at h
          obtain ⟨k, hle, hlt, hk⟩ := ih h
          exact ⟨k, by omega, by omega, hk⟩

/-- The file that is found has the name, and is in a block of the directory. -/
theorem lookup_some (hok : DirOk v dir) (h : lookup v dir name = some g) :
    ∃ i b j, i < dirNblocks v dir ∧ (slotOf dir i).Has v b ∧ j < blkfiles ∧ g = fileVa b j ∧
      NameAt v g name := by
  obtain ⟨i, -, hi, hfind⟩ := scan_some h
  obtain ⟨j, hj, hg, hname⟩ := findIn_some hfind
  rw [Nat.zero_add] at hi
  obtain ⟨b, hhas⟩ := hok.blocks i hi
  rw [hhas.val] at hg
  exact ⟨i, b, j, hi, hhas, hj, hg, hname⟩

theorem lookup_reach (hdir : Reach v dir) (htype : IsDir v dir) (hok : DirOk v dir)
    (hne : name ≠ []) (hnul : 0#8 ∉ name) (h : lookup v dir name = some g) : Reach v g := by
  obtain ⟨i, b, j, hi, hhas, hj, rfl, hname⟩ := lookup_some hok h
  refine Reach.entry hdir htype hi hhas hj (fun hzero => ?_)
  cases name with
  | nil => exact hne rfl
  | cons c cs =>
      have hc := (nameAt_cons.mp hname).1
      rw [hzero] at hc
      exact hnul (hc ▸ List.mem_cons_self)

theorem skipSlash_mem {c : U8} (h : c ∈ skipSlash path) : c ∈ path := by
  induction path with
  | nil => exact h
  | cons d ds ih =>
      unfold skipSlash at h
      split at h
      · exact List.mem_cons_of_mem _ (ih h)
      · exact h

theorem skipSlash_head {c : U8} {cs : List U8} (h : skipSlash path = c :: cs) : c ≠ slash := by
  induction path with
  | nil => cases h
  | cons d ds ih =>
      unfold skipSlash at h
      split at h
      · exact ih h
      · cases h
        assumption

namespace Fs

/-- `walk_path` finds what there is. -/
theorem walkFrom_returns {dir : Option Nat} (hs : Ready s) (hused : DirsUsed s.view)
    (hdirs : DirsOk s.view) (hf : Reach s.view f) (hnul : 0#8 ∉ path)
    (hhead : ∀ c cs, path = c :: cs → c ≠ slash) :
    Returns (walkFrom dir f n path)
      (fun r s' => Loads s s' ∧ r = walkIn s.view dir f n path) s := by
  induction n generalizing dir f path s with
  | zero =>
      unfold walkFrom walkIn
      exact ⟨Loads.refl, rfl⟩
  | succ n ih =>
      cases path with
      | nil =>
          unfold walkFrom walkIn
          exact ⟨Loads.refl, rfl⟩
      | cons c cs =>
          have hslash : c ≠ slash := hhead c cs rfl
          have hne : (c :: cs).takeWhile (· ≠ slash) ≠ [] := by
            rw [List.takeWhile_cons_of_pos (by simpa using hslash)]
            simp
          have hnul' : 0#8 ∉ (c :: cs).takeWhile (· ≠ slash) := fun hmem =>
            hnul (List.takeWhile_subset _ hmem)
          have hrest : 0#8 ∉ skipSlash ((c :: cs).dropWhile (· ≠ slash)) := fun hmem =>
            hnul (List.dropWhile_subset _ (skipSlash_mem hmem))
          unfold walkFrom walkIn
          dsimp only
          refine wp_ite (fun hlong => ?_) (fun hshort => ?_)
          · rw [if_pos hlong]
            exact ⟨Loads.refl, rfl⟩
          rw [if_neg hshort]
          refine returns_bind (loadWord_record hs hf.aligned (fun _ => hused.fine hs hf)
            (a := 132) (by decide) (by decide)) (fun w s₁ h => ?_)
          obtain ⟨hloads, rfl⟩ := h
          change Returns (if word s.view (fTypeVa f) ≠ ftypeDir then _ else _) _ _
          refine wp_ite (fun htype => ?_) (fun htype => ?_)
          · rw [if_pos htype]
            exact ⟨hloads, rfl⟩
          rw [if_neg htype]
          have hdir : IsDir s.view f := Classical.not_not.mp htype
          have hok := hdirs f hf hdir
          rw [← hloads.view] at hused hdirs hf hdir hok ⊢
          have hs₁ := hs.loads hloads
          refine returns_bind (dirLookup_returns hs₁ hused hf hdir hok (Nat.lt_of_not_le hshort))
            (fun r s₂ h => ?_)
          obtain ⟨hloads', rfl⟩ := h
          have hall := hloads.trans hloads'
          cases hlook : lookup s₁.view f ((c :: cs).takeWhile (· ≠ slash)) with
          | none =>
              dsimp only
              refine wp_ite (fun hlast => ?_) (fun hlast => ?_)
              · rw [if_pos hlast.2]
                exact ⟨hall, rfl⟩
              · rw [if_neg (fun hnil => hlast ⟨rfl, hnil⟩)]
                exact ⟨hall, rfl⟩
          | some g =>
              have hg := lookup_reach hf hdir hok hne hnul' hlook
              rw [← hloads'.view] at hused hdirs hg ⊢
              exact Returns.mono (ih (hs₁.loads hloads') hused hdirs hg hrest
                (fun _ _ h => skipSlash_head h)) (fun r s₃ h => ⟨hall.trans h.1, h.2⟩)

theorem walkPath_returns (hs : Ready s) (hused : DirsUsed s.view) (hdirs : DirsOk s.view)
    (hnul : 0#8 ∉ path) :
    Returns (walkPath path) (fun r s' => Loads s s' ∧ r = walk s.view path) s :=
  walkFrom_returns hs hused hdirs Reach.root (fun hmem => hnul (skipSlash_mem hmem))
    (fun _ _ h => skipSlash_head h)

/-- `file_open` returns what there is. -/
theorem fileOpen_returns (hs : Ready s) (howned : Owned s.view) (hdirs : DirsOk s.view)
    (hnul : 0#8 ∉ path) :
    Returns (fileOpen path) (fun r s' => Loads s s' ∧ r = opened s.view path) s := by
  unfold fileOpen
  refine returns_bind (walkPath_returns hs howned.dirsUsed hdirs hnul) (fun r s₁ h => ?_)
  obtain ⟨hloads, rfl⟩ := h
  unfold opened
  cases walk s.view path with
  | found dir f => exact ⟨hloads, rfl⟩
  | missing dir name => exact ⟨hloads, rfl⟩
  | fails e => exact ⟨hloads, rfl⟩

end Fs

end Paths

end Jos

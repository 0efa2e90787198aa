import Jos.Descriptors
import Jos.Lib.Prog

/-!
# The page system calls of a user program

One environment, the environment that it is making, and the calls through which it
changes what the two of them map.  Pages are named by number and carry their bytes;
whether there is memory for another page is decided each time the kernel needs one.
-/

namespace Jos.User

open Programs

/-- `PTE_U` and `PTE_P`, which `sys_page_alloc` and `sys_page_map` insist on. -/
def UserFlags (perm : U32) : Prop := perm &&& (pteU ||| pteP) = pteU ||| pteP

instance (perm : U32) : Decidable (UserFlags perm) := inferInstanceAs (Decidable (_ = _))

/-- The part of an address space below `UTOP`: its pages, and the slots of the
directory that have a page table. -/
structure PageTable where
  entry : Nat → Option UserPte
  table : Nat → Bool
  below : ∀ v w, entry v = some w → v < userPages
  flags : ∀ v w, entry v = some w → UserFlags w.perm
  tabled : ∀ v w, entry v = some w → table (v / 1024) = true

namespace PageTable

/-- `page_remove`. -/
def clear (t : PageTable) (v : Nat) : PageTable where
  entry := Function.update t.entry v none
  table := t.table
  below := fun v' w h => by
    by_cases hv : v' = v
    · simp [hv] at h
    · rw [Function.update_of_ne hv] at h
      exact t.below v' w h
  flags := fun v' w h => by
    by_cases hv : v' = v
    · simp [hv] at h
    · rw [Function.update_of_ne hv] at h
      exact t.flags v' w h
  tabled := fun v' w h => by
    by_cases hv : v' = v
    · simp [hv] at h
    · rw [Function.update_of_ne hv] at h
      exact t.tabled v' w h

/-- A page is entered, with a page table for it. -/
def fill (t : PageTable) (v : Nat) (w : UserPte) (hw : v < userPages ∧ UserFlags w.perm) :
    PageTable where
  entry := Function.update t.entry v (some w)
  table := Function.update t.table (v / 1024) true
  below := fun v' w' h => by
    by_cases hv : v' = v
    · exact hv ▸ hw.1
    · rw [Function.update_of_ne hv] at h
      exact t.below v' w' h
  flags := fun v' w' h => by
    by_cases hv : v' = v
    · rw [hv, Function.update_self] at h
      exact Option.some.inj h ▸ hw.2
    · rw [Function.update_of_ne hv] at h
      exact t.flags v' w' h
  tabled := fun v' w' h => by
    by_cases hv : v' = v
    · rw [hv, Function.update_self]
    · rw [Function.update_of_ne hv] at h
      by_cases hslot : v' / 1024 = v / 1024
      · rw [hslot, Function.update_self]
      · rw [Function.update_of_ne hslot]
        exact t.tabled v' w' h

/-- Nothing is mapped below `UTOP`. -/
def empty : PageTable where
  entry := fun _ => none
  table := fun _ => false
  below := fun _ _ h => nomatch h
  flags := fun _ _ h => nomatch h
  tabled := fun _ _ h => nomatch h

variable {t : PageTable} {v v' : Nat} {w : UserPte} {hw : v < userPages ∧ UserFlags w.perm}

@[simp] theorem clear_self : (t.clear v).entry v = none := Function.update_self _ _ _

theorem clear_of_ne (h : v' ≠ v) : (t.clear v).entry v' = t.entry v' :=
  Function.update_of_ne h _ _

@[simp] theorem clear_table : (t.clear v).table = t.table := rfl

@[simp] theorem fill_self : (t.fill v w hw).entry v = some w := Function.update_self _ _ _

theorem fill_of_ne (h : v' ≠ v) : (t.fill v w hw).entry v' = t.entry v' :=
  Function.update_of_ne h _ _

end PageTable

/-- Whose address space a call changes. -/
inductive Who where
  | own
  | child
deriving DecidableEq

/-- The calling environment. -/
structure Caller where
  own : PageTable
  /-- The environment that it has made, while there is one. -/
  child : Option PageTable
  /-- What pages hold. -/
  bytes : Nat → Nat → U8
  /-- Pages from here on were never used. -/
  fresh : Nat
  /-- Whether there is a free page the `n`th time that the kernel needs one. -/
  memory : Nat → Bool
  asked : Nat

namespace Caller

def space (s : Caller) : Who → Option PageTable
  | .own => some s.own
  | .child => s.child

def setSpace (s : Caller) (t : PageTable) : Who → Caller
  | .own => { s with own := t }
  | .child => { s with child := some t }

end Caller

/-! ## The calls -/

/-- `page_alloc`, as far as it matters whether there is a page. -/
def needPage : Prog Caller Bool := do
  let s ← Prog.get
  Prog.modify (fun s => { s with asked := s.asked + 1 })
  pure (s.memory s.asked)

/-- A page table is needed if the slot of the directory has none. -/
def needTable (t : PageTable) (v : Nat) : Prog Caller Bool :=
  if t.table (v / 1024) then pure true else needPage

/-- `page_insert`. -/
def pageInsert (who : Who) (t : PageTable) (v : Nat) (w : UserPte)
    (hw : v < userPages ∧ UserFlags w.perm) : Prog Caller Int := do
  let ok ← needTable t v
  if ok then do
    Prog.modify (fun s => s.setSpace (t.fill v w hw) who)
    pure 0
  else pure (-eNoMem)

/-- `sys_page_alloc`, at page number `v`. -/
def sysPageAlloc (who : Who) (v : Nat) (perm : U32) : Prog Caller Int := do
  let s ← Prog.get
  match s.space who with
  | none => pure (-eBadEnv)
  | some t =>
      if hw : v < userPages ∧ UserFlags perm then do
        let ok ← needPage
        if ok then do
          -- the page is cleared; it is freed again if it cannot be mapped
          Prog.modify (fun s => { s with
            bytes := Function.update s.bytes s.fresh (fun _ => 0#8)
            fresh := s.fresh + 1 })
          pageInsert who t v ⟨s.fresh, perm⟩ hw
        else pure (-eNoMem)
      else pure (-eInval)

/-- `sys_page_map`, of an own page. -/
def sysPageMap (src : Nat) (who : Who) (dst : Nat) (perm : U32) : Prog Caller Int := do
  let s ← Prog.get
  match s.space who with
  | none => pure (-eBadEnv)
  | some t =>
      match s.own.entry src with
      | none => pure (-eInval)
      | some w =>
          if hw : dst < userPages ∧ UserFlags perm then
            if ¬ HasFlag w.perm pteW ∧ HasFlag perm pteW then pure (-eInval)
            else pageInsert who t dst ⟨w.page, perm⟩ hw
          else pure (-eInval)

/-- `sys_page_unmap`, of an own page. -/
def sysPageUnmap (v : Nat) : Prog Caller Int := do
  if v < userPages then do
    Prog.modify (fun s => { s with own := s.own.clear v })
    pure 0
  else pure (-eInval)

/-! ## File descriptors -/

/-- The device of a descriptor page, and what closing it returns. -/
inductive Device where
  | pipe
  | other (r : Int)

section Descriptors

-- `fd_dev_id`, of the page that a descriptor maps
variable (device : Nat → Device)

/-- `fd_lookup`. -/
def fdLookup (i : Int) : Prog Caller Int := do
  if 0 ≤ i ∧ i < maxFd then do
    let s ← Prog.get
    match s.own.entry (fdPage i) with
    | none => pure (-eInval)
    | some _ => pure 0
  else pure (-eInval)

/-- `devpipe_close`. -/
def devpipeClose (i : Int) : Prog Caller Int := do
  let _ ← sysPageUnmap (fdPage i)
  sysPageUnmap (dataPage i)

/-- `fd_close` of a descriptor that exists, with page `p`. -/
def fdClose (i : Int) (p : Nat) : Prog Caller Int := do
  let r ← match device p with
    | .pipe => devpipeClose i
    | .other r => pure r
  let _ ← sysPageUnmap (fdPage i)
  pure r

/-- `close`. -/
def close (i : Int) : Prog Caller Int := do
  let r ← fdLookup i
  if r < 0 then pure r
  else do
    let s ← Prog.get
    match s.own.entry (fdPage i) with
    | none => pure (-eInval)
    | some w => fdClose device i w.page

/-- `dup` at its label `err`. -/
def dupErr (new r : Int) : Prog Caller Int := do
  let _ ← sysPageUnmap (fdPage new)
  let _ ← sysPageUnmap (dataPage new)
  pure r

/-- The flags of the entry that `uvpt` shows for page number `v`. -/
def Caller.perm (s : Caller) (v : Nat) : U32 :=
  match s.own.entry v with
  | none => 0#32
  | some w => w.perm &&& pteSyscall

/-- The last mapping of `dup`. -/
def dupFd (old new : Int) : Prog Caller Int := do
  let s ← Prog.get
  let r ← sysPageMap (fdPage old) .own (fdPage new) (s.perm (fdPage old))
  if r < 0 then dupErr new r else pure new

/-- `dup`. -/
def dup (old new : Int) : Prog Caller Int := do
  let r ← fdLookup old
  if r < 0 then pure r
  else do
    let _ ← close device new
    let s ← Prog.get
    if (s.own.entry (dataPage old)).isSome then do
      let r ← sysPageMap (dataPage old) .own (dataPage new) (s.perm (dataPage old))
      if r < 0 then dupErr new r else dupFd old new
    else dupFd old new

end Descriptors

/-! ## What the calls do -/

section Calls

variable {c : Caller} {v : Nat} {perm : U32}

/-- A page is entered, or there is no memory for its page table. -/
theorem pageInsert_returns {who : Who} {t : PageTable} {w : UserPte}
    {hw : v < userPages ∧ UserFlags w.perm} :
    Returns (pageInsert who t v w hw) (fun r c' => ∃ k,
      (r < 0 ∧ ((∃ n, c.memory n = false) ∧ t.table (v / 1024) = false) ∧
        c' = { c with asked := k }) ∨
      (r = 0 ∧ c' = Caller.setSpace { c with asked := k } (t.fill v w hw) who)) c := by
  have hneed : Returns (needTable t v) (fun ok c' => ∃ k, c' = { c with asked := k } ∧
      (ok = false → (∃ n, c.memory n = false) ∧ t.table (v / 1024) = false)) c := by
    unfold needTable
    exact wp_ite (fun _ => ⟨c.asked, rfl, fun h => nomatch h⟩)
      (fun hno => ⟨c.asked + 1, rfl, fun h => ⟨⟨c.asked, h⟩, Bool.not_eq_true _ ▸ hno⟩⟩)
  unfold pageInsert
  refine returns_bind hneed (fun ok c' hc' => ?_)
  obtain ⟨k, rfl, hmemory⟩ := hc'
  refine wp_ite (fun _ => ⟨k, Or.inr ⟨rfl, rfl⟩⟩) (fun hok => ⟨k, Or.inl ⟨by decide, ?_, rfl⟩⟩)
  exact hmemory (Bool.not_eq_true ok ▸ hok)

/-- A new page is entered, or there is no memory for it. -/
theorem sysPageAlloc_returns {who : Who} {t : PageTable} (ht : c.space who = some t) :
    Returns (sysPageAlloc who v perm) (fun r c' =>
      (r < 0 ∧ (v < userPages ∧ UserFlags perm → ∃ n, c.memory n = false) ∧
        c'.own = c.own ∧ c'.child = c.child ∧ c.fresh ≤ c'.fresh ∧ c'.memory = c.memory ∧
        ∀ p < c.fresh, c'.bytes p = c.bytes p) ∨
      (r = 0 ∧ ∃ hw k, c' = Caller.setSpace { c with
        asked := k
        bytes := Function.update c.bytes c.fresh (fun _ => 0#8)
        fresh := c.fresh + 1 } (t.fill v ⟨c.fresh, perm⟩ hw) who)) c := by
  unfold sysPageAlloc
  rw [Returns, wp_get_bind, ht]
  dsimp only
  split
  · rename_i hw
    unfold needPage
    rw [wp_bind, wp_get_bind, wp_modify_bind, wp_pure]
    dsimp only
    refine wp_ite (fun _ => ?_) (fun hno => ?_)
    · rw [wp_modify_bind]
      refine wp_of_returns pageInsert_returns ?_
      rintro r c' ⟨k, ⟨hr, hmemory, rfl⟩ | ⟨hr, rfl⟩⟩
      · exact Or.inl ⟨hr, fun _ => hmemory.1, rfl, rfl, Nat.le_succ _, rfl,
          fun p hp => Function.update_of_ne (Nat.ne_of_lt hp) _ _⟩
      · exact Or.inr ⟨hr, hw, k, rfl⟩
    · exact Or.inl ⟨by decide, fun _ => ⟨c.asked, Bool.not_eq_true _ ▸ hno⟩, rfl, rfl,
        Nat.le_refl _, rfl, fun _ _ => rfl⟩
  · rename_i hw
    exact Or.inl ⟨by decide, fun h => absurd h hw, rfl, rfl, Nat.le_refl _, rfl,
      fun _ _ => rfl⟩

/-- A page of the caller is mapped, or it may not be, or there is no memory for its page
table. -/
theorem sysPageMap_returns {who : Who} {t : PageTable} {src dst : Nat} {w : UserPte}
    (ht : c.space who = some t) (hsrc : c.own.entry src = some w) :
    Returns (sysPageMap src who dst perm) (fun r c' => ∃ k,
      (r < 0 ∧ (dst < userPages ∧ UserFlags perm ∧ (HasFlag perm pteW → HasFlag w.perm pteW) →
          (∃ n, c.memory n = false) ∧ t.table (dst / 1024) = false) ∧
        c' = { c with asked := k }) ∨
      (r = 0 ∧ ∃ hw, c' = Caller.setSpace { c with asked := k }
        (t.fill dst ⟨w.page, perm⟩ hw) who)) c := by
  unfold sysPageMap
  rw [Returns, wp_get_bind, ht]
  dsimp only
  rw [hsrc]
  dsimp only
  split
  · rename_i hw
    refine wp_ite (fun hread => ?_) (fun _ => ?_)
    · exact ⟨c.asked, Or.inl ⟨by decide, fun h => absurd (h.2.2 hread.2) hread.1, rfl⟩⟩
    · refine wp_of_returns pageInsert_returns ?_
      rintro r c' ⟨k, ⟨hr, hmemory, rfl⟩ | ⟨hr, rfl⟩⟩
      · exact ⟨k, Or.inl ⟨hr, fun _ => hmemory, rfl⟩⟩
      · exact ⟨k, Or.inr ⟨hr, hw, rfl⟩⟩
  · rename_i hw
    exact ⟨c.asked, Or.inl ⟨by decide, fun h => absurd ⟨h.1, h.2.1⟩ hw, rfl⟩⟩

end Calls

end Jos.User

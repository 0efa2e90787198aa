import Jos.Machine
import Jos.Lib.RefPool
import Mathlib.Data.Finset.Prod

/-!
# `lib/fd.c`, `lib/fork.c`, `lib/spawn.c`: descriptors and address spaces

What the library routines that close, duplicate and inherit file descriptors do
to the address spaces of environments, one page system call at a time.  A page
stands for one use of a physical page: a page that is freed and allocated again
is another page.

Only the part below `UTOP` matters, and of a mapping the page and the flags.
Anything may happen between two steps of one environment.
-/

namespace Jos

open RefPool

/-- `PTE_SHARE`. -/
def pteShare : U32 := 0x400#32

/-- `PTE_COW`. -/
def pteCow : U32 := 0x800#32

/-- `MAXFD`. -/
def maxFd : Nat := 32

/-- Pages below `UTOP`. -/
def userPages : Nat := 0xEEC00

/-- Pages below `USTACKTOP`. -/
def stackPages : Nat := 0xEEBFE

/-- `PGNUM(UXSTACKTOP - PGSIZE)`. -/
def xstackPage : Nat := 0xEEBFF

/-- `PGNUM(UTEMP)`. -/
def utempPage : Nat := 0x400

/-- `PGNUM(INDEX2FD(i))`. -/
def fdPage (i : Int) : Nat := ((0xD0000 + i) % 0x100000).toNat

/-- `PGNUM(INDEX2DATA(i))`. -/
def dataPage (i : Int) : Nat := ((0xD0020 + i) % 0x100000).toNat

/-- A present page-table entry. -/
structure UserPte where
  page : Nat
  perm : U32
deriving DecidableEq

/-- An address space, by page number. -/
abbrev Space : Type := Nat → Option UserPte

namespace Space

/-- The page that an address space maps at page number `v`. -/
def page (m : Space) (v : Nat) : Option Nat := (m v).map UserPte.page

def set (m : Space) (v : Nat) (w : Option UserPte) : Space := Function.update m v w

variable {m : Space} {v v' : Nat} {w : Option UserPte}

@[simp] theorem set_self : m.set v w v = w := by
  simp [set]

theorem set_of_ne (h : v' ≠ v) : m.set v w v' = m v' := by
  simp [set, h]

@[simp] theorem page_set_self : (m.set v w).page v = w.map UserPte.page := by
  simp [page]

theorem page_set_of_ne (h : v' ≠ v) : (m.set v w).page v' = m.page v' := by
  unfold page
  rw [set_of_ne h]

/-- An entry of the new space is the new one or one of the old space. -/
theorem page_set_eq {q : Nat} (h : (m.set v w).page v' = some q) :
    (v' = v ∧ w.map UserPte.page = some q) ∨ (v' ≠ v ∧ m.page v' = some q) := by
  by_cases hv : v' = v
  · subst hv
    rw [page_set_self] at h
    exact Or.inl ⟨rfl, h⟩
  · rw [page_set_of_ne hv] at h
    exact Or.inr ⟨hv, h⟩

end Space

/-- Whether a slot is free, or in use, or its environment is still made by its
parent. -/
inductive Life where
  | free
  | embryo (parent : Nat)
  | alive
deriving DecidableEq

/-- The address spaces of all environments. -/
structure Users where
  spaces : Nat → Space
  life : Nat → Life

namespace Users

def set (u : Users) (e v : Nat) (w : Option UserPte) : Users :=
  { u with spaces := Function.update u.spaces e ((u.spaces e).set v w) }

def setLife (u : Users) (e : Nat) (l : Life) : Users :=
  { u with life := Function.update u.life e l }

def setSpace (u : Users) (e : Nat) (m : Space) : Users :=
  { u with spaces := Function.update u.spaces e m }

/-- The entries of all address spaces. -/
@[irreducible] def slots : Finset (Nat × Nat) :=
  Finset.range nenv ×ˢ Finset.range userPages

theorem mem_slots {r : Nat × Nat} : r ∈ slots ↔ r.1 < nenv ∧ r.2 < userPages := by
  unfold slots
  rw [Finset.mem_product, Finset.mem_range, Finset.mem_range]

/-- The entries that map page `p`. -/
@[irreducible] def entries (u : Users) (p : Nat) : Finset (Nat × Nat) :=
  slots.filter (fun r => (u.spaces r.1).page r.2 = some p)

/-- How many entries map page `p`. -/
def refs (u : Users) (p : Nat) : Nat := (u.entries p).card

/-- `pageref`, of the address with page number `v` of environment `e`: `pp_ref`
has 16 bits. -/
def pageref (u : Users) (e v : Nat) : Nat :=
  match (u.spaces e).page v with
  | none => 0
  | some p => u.refs p % 65536

end Users

/-! ## Programs -/

/-- A library routine: what it reads of its own page table, and the system calls
and requests that it makes.  Page numbers are those of the caller, except the
destinations of `copy` and `allocChild`. -/
inductive LibCode where
  | ret
  | look (v : Nat) (next : Option UserPte → LibCode)
  | unmap (v : Nat) (next : LibCode)
  | map (src dst : Nat) (perm : U32) (next : Bool → LibCode)
  | alloc (v : Nat) (next : Bool → LibCode)
  | request (next : Bool → LibCode)
  | receive (v : Nat) (next : Bool → LibCode)
  | exofork (next : Option Nat → LibCode)
  | copy (child src dst : Nat) (perm : U32) (next : Bool → LibCode)
  | allocChild (child v : Nat) (next : Bool → LibCode)
  | start (child : Nat) (next : LibCode)
  | destroy (child : Nat) (next : LibCode)

namespace LibCode

/-- One routine after the other. -/
def andThen : LibCode → LibCode → LibCode
  | ret, d => d
  | look v next, d => look v (fun w => (next w).andThen d)
  | unmap v next, d => unmap v (next.andThen d)
  | map src dst perm next, d => map src dst perm (fun ok => (next ok).andThen d)
  | alloc v next, d => alloc v (fun ok => (next ok).andThen d)
  | request next, d => request (fun ok => (next ok).andThen d)
  | receive v next, d => receive v (fun ok => (next ok).andThen d)
  | exofork next, d => exofork (fun c => (next c).andThen d)
  | copy child src dst perm next, d =>
      copy child src dst perm (fun ok => (next ok).andThen d)
  | allocChild child v next, d => allocChild child v (fun ok => (next ok).andThen d)
  | start child next, d => start child (next.andThen d)
  | destroy child next, d => destroy child (next.andThen d)

/-- One step of environment `e`.  A call that maps may fail for want of memory.
A page that is allocated is not in use; neither that nor a page that the file
server sends is one of the pages `reserved`. -/
inductive Step (reserved : Set Nat) (e : Nat) :
    LibCode → Users → LibCode → Users → Prop where
  | look {v : Nat} {next : Option UserPte → LibCode} {u : Users} :
      Step reserved e (.look v next) u (next (u.spaces e v)) u
  | unmap {v : Nat} {next : LibCode} {u : Users} :
      v < userPages →
      Step reserved e (.unmap v next) u next (u.set e v none)
  | unmapFails {v : Nat} {next : LibCode} {u : Users} :
      ¬ v < userPages →
      Step reserved e (.unmap v next) u next u
  | map {src dst : Nat} {perm : U32} {next : Bool → LibCode} {u : Users}
      {w : UserPte} :
      src < userPages → dst < userPages → u.spaces e src = some w →
      (HasFlag perm pteW → HasFlag w.perm pteW) →
      Step reserved e (.map src dst perm next) u (next true)
        (u.set e dst (some ⟨w.page, perm⟩))
  | mapFails {src dst : Nat} {perm : U32} {next : Bool → LibCode} {u : Users} :
      Step reserved e (.map src dst perm next) u (next false) u
  | alloc {v : Nat} {next : Bool → LibCode} {u : Users} {w : UserPte} :
      v < userPages → u.refs w.page = 0 → w.page ∉ reserved →
      Step reserved e (.alloc v next) u (next true) (u.set e v (some w))
  | allocFails {v : Nat} {next : Bool → LibCode} {u : Users} :
      Step reserved e (.alloc v next) u (next false) u
  | request {next : Bool → LibCode} {u : Users} {ok : Bool} :
      Step reserved e (.request next) u (next ok) u
  | receive {v : Nat} {next : Bool → LibCode} {u : Users} {w : UserPte} :
      v < userPages → w.page ∉ reserved →
      Step reserved e (.receive v next) u (next true) (u.set e v (some w))
  | receiveFails {v : Nat} {next : Bool → LibCode} {u : Users} :
      Step reserved e (.receive v next) u (next false) u
  | exofork {next : Option Nat → LibCode} {u : Users} {c : Nat} :
      c < nenv → u.life c = .free →
      Step reserved e (.exofork next) u (next (some c))
        ((u.setLife c (.embryo e)).setSpace c (fun _ => none))
  | exoforkFails {next : Option Nat → LibCode} {u : Users} :
      Step reserved e (.exofork next) u (next none) u
  | copy {child src dst : Nat} {perm : U32} {next : Bool → LibCode} {u : Users}
      {w : UserPte} :
      u.life child = .embryo e → src < userPages → dst < userPages →
      u.spaces e src = some w → (HasFlag perm pteW → HasFlag w.perm pteW) →
      Step reserved e (.copy child src dst perm next) u (next true)
        (u.set child dst (some ⟨w.page, perm⟩))
  | copyFails {child src dst : Nat} {perm : U32} {next : Bool → LibCode}
      {u : Users} :
      Step reserved e (.copy child src dst perm next) u (next false) u
  | allocChild {child v : Nat} {next : Bool → LibCode} {u : Users} {w : UserPte} :
      u.life child = .embryo e → v < userPages → u.refs w.page = 0 →
      w.page ∉ reserved →
      Step reserved e (.allocChild child v next) u (next true)
        (u.set child v (some w))
  | allocChildFails {child v : Nat} {next : Bool → LibCode} {u : Users} :
      Step reserved e (.allocChild child v next) u (next false) u
  | start {child : Nat} {next : LibCode} {u : Users} :
      u.life child = .embryo e →
      Step reserved e (.start child next) u next (u.setLife child .alive)
  | destroy {child : Nat} {next : LibCode} {u : Users} :
      u.life child = .embryo e →
      Step reserved e (.destroy child next) u next
        ((u.setLife child .free).setSpace child (fun _ => none))

/-! ## The routines -/

section Routines

variable (isPipe : Nat → Bool)

/-- `fd_alloc`, from descriptor `i` on. -/
def fdAlloc : Nat → Nat → (Option Nat → LibCode) → LibCode
  | _, 0, next => next none
  | i, n + 1, next => look (fdPage i) (fun w =>
      match w with
      | none => next (some i)
      | some _ => fdAlloc (i + 1) n next)

/-- `fd_lookup`, and what follows if the descriptor is open. -/
def fdLookup (i : Int) (next : UserPte → LibCode) : LibCode :=
  if 0 ≤ i ∧ i < maxFd then
    look (fdPage i) (fun w =>
      match w with
      | none => ret
      | some w => next w)
  else
    ret

/-- `devpipe_close`. -/
def devpipeClose (i : Int) : LibCode :=
  unmap (fdPage i) (unmap (dataPage i) ret)

/-- `close`: the device of an open descriptor is told, and the descriptor page is
unmapped.  Only the device of a pipe unmaps pages. -/
def close (i : Int) : LibCode :=
  fdLookup i (fun _ => fdLookup i (fun w =>
    (if isPipe w.page then devpipeClose i else ret).andThen (unmap (fdPage i) ret)))

/-- `dup` at its label `err`. -/
def dupErr (new : Int) : LibCode :=
  unmap (fdPage new) (unmap (dataPage new) ret)

/-- The last mapping of `dup`. -/
def dupFd (old new : Int) : LibCode :=
  look (fdPage old) (fun w =>
    match w with
    | none => dupErr new
    | some w => map (fdPage old) (fdPage new) (w.perm &&& pteSyscall)
        (fun ok => if ok then ret else dupErr new))

/-- `dup`. -/
def dup (old new : Int) : LibCode :=
  fdLookup old (fun _ =>
    (close isPipe new).andThen
      (look (dataPage old) (fun w =>
        match w with
        | none => dupFd old new
        | some w => map (dataPage old) (dataPage new) (w.perm &&& pteSyscall)
            (fun ok => if ok then dupFd old new else dupErr new))))

/-- `duppage`. -/
def duppage (child v : Nat) (w : UserPte) (next : LibCode) : LibCode :=
  if HasFlag w.perm pteShare then
    copy child v v pteSyscall (fun _ => next)
  else if HasFlag w.perm pteW ∨ HasFlag w.perm pteCow then
    -- a failure panics
    copy child v v (pteCow ||| pteU ||| pteP) (fun ok =>
      if ok then map v v (pteCow ||| pteU ||| pteP) (fun ok =>
        if ok then next else ret)
      else ret)
  else
    copy child v v (pteU ||| pteP) (fun _ => next)

/-- The loop of `fork` over the address space, from page `v` on. -/
def forkPages (child : Nat) : Nat → Nat → LibCode → LibCode
  | _, 0, next => next
  | v, n + 1, next => look v (fun w =>
      match w with
      | none => forkPages child (v + 1) n next
      | some w =>
          if HasFlag w.perm pteU then
            duppage child v w (forkPages child (v + 1) n next)
          else forkPages child (v + 1) n next)

/-- `fork`. -/
def fork : LibCode :=
  exofork (fun c =>
    match c with
    | none => ret
    | some child =>
        forkPages child 0 stackPages
          (allocChild child xstackPage (fun ok =>
            if ok then start child ret else ret)))

/-- `copy_shared_pages`, from page `v` on. -/
def copySharedPages (child : Nat) : Nat → Nat → LibCode → LibCode
  | _, 0, next => next
  | v, n + 1, next => look v (fun w =>
      match w with
      | none => copySharedPages child (v + 1) n next
      | some w =>
          if HasFlag w.perm pteU ∧ HasFlag w.perm pteShare then
            copy child v v (w.perm &&& pteSyscall)
              (fun _ => copySharedPages child (v + 1) n next)
          else copySharedPages child (v + 1) n next)

/-- `init_stack`, of arguments that fit or not. -/
def initStack (child : Nat) (fits : Bool) (next : Bool → LibCode) : LibCode :=
  if fits then
    alloc utempPage (fun ok =>
      if ok then
        copy child utempPage (stackPages - 1) (pteP ||| pteU ||| pteW)
          (fun ok => unmap utempPage (next ok))
      else next false)
  else next false

/-- `map_segment`, of pages that are read from the file or blank. -/
def mapSegment (child : Nat) (perm : U32) (next : Bool → LibCode) :
    List (Nat × Bool) → LibCode
  | [] => next true
  | (v, false) :: l => allocChild child v (fun ok =>
      if ok then mapSegment child perm next l else next false)
  | (v, true) :: l => alloc utempPage (fun ok =>
      if ok then
        -- `seek` and `readn`
        request (fun ok =>
          if ok then
            copy child utempPage v perm (fun ok =>
              if ok then unmap utempPage (mapSegment child perm next l) else ret)
          else next false)
      else next false)

/-- The loop of `spawn` over the program headers. -/
def mapSegments (child : Nat) (next : Bool → LibCode) :
    List (U32 × List (Nat × Bool)) → LibCode
  | [] => next true
  | (perm, l) :: segs => mapSegment child perm (fun ok =>
      if ok then mapSegments child next segs else next false) l

/-- `spawn`, of a program with the segments `image`. -/
def spawn (fits : Bool) (image : List (U32 × List (Nat × Bool))) : LibCode :=
  fdAlloc 0 maxFd (fun i =>
    match i with
    | none => ret
    | some fd => receive (fdPage fd) (fun ok =>
        if ok then
          request (fun ok =>
            if ok then
              exofork (fun c =>
                match c with
                | none => ret
                | some child => initStack child fits (fun ok =>
                    if ok then
                      mapSegments child (fun ok =>
                        if ok then
                          (close isPipe fd).andThen
                            (copySharedPages child 0 userPages (start child ret))
                        else destroy child (close isPipe fd)) image
                    else ret))
            else close isPipe fd)
        else ret))

end Routines

end LibCode

/-! ## Counting -/

namespace Users

variable {u : Users} {e e' v v' p : Nat} {w : Option UserPte}

@[simp] theorem set_self : (u.set e v w).spaces e v = w := by
  simp [set]

theorem set_of_ne (h : ¬ (e' = e ∧ v' = v)) :
    (u.set e v w).spaces e' v' = u.spaces e' v' := by
  unfold set
  by_cases he : e' = e
  · subst he
    have hv : v' ≠ v := fun hv => h ⟨rfl, hv⟩
    simp [Space.set_of_ne hv]
  · simp [he]

theorem set_space_self : (u.set e v w).spaces e = (u.spaces e).set v w := by
  simp [set]

theorem set_space_of_ne (h : e' ≠ e) : (u.set e v w).spaces e' = u.spaces e' := by
  simp [set, h]

@[simp] theorem set_life : (u.set e v w).life = u.life := rfl

@[simp] theorem setLife_spaces (l : Life) : (u.setLife e l).spaces = u.spaces := rfl

@[simp] theorem setSpace_life (m : Space) : (u.setSpace e m).life = u.life := rfl

@[simp] theorem setSpace_self (m : Space) : (u.setSpace e m).spaces e = m := by
  simp [setSpace]

theorem setSpace_of_ne {m : Space} (h : e' ≠ e) :
    (u.setSpace e m).spaces e' = u.spaces e' := by
  simp [setSpace, h]

@[simp] theorem setLife_self (l : Life) : (u.setLife e l).life e = l := by
  simp [setLife]

theorem setLife_of_ne {l : Life} (h : e' ≠ e) :
    (u.setLife e l).life e' = u.life e' := by
  simp [setLife, h]

theorem mem_entries {r : Nat × Nat} : r ∈ u.entries p ↔
    (r.1 < nenv ∧ r.2 < userPages) ∧ (u.spaces r.1).page r.2 = some p := by
  unfold entries
  rw [Finset.mem_filter, mem_slots]

theorem refs_eq_zero : u.refs p = 0 ↔
    ∀ e v, e < nenv → v < userPages → (u.spaces e).page v ≠ some p := by
  unfold refs entries
  rw [Finset.card_eq_zero, Finset.filter_eq_empty_iff]
  constructor
  · intro h e v he hv
    exact @h (e, v) (mem_slots.mpr ⟨he, hv⟩)
  · intro h r hr
    exact h r.1 r.2 (mem_slots.mp hr).1 (mem_slots.mp hr).2

theorem pageref_of_page (h : (u.spaces e).page v = some p) :
    u.pageref e v = u.refs p % 65536 := by
  unfold pageref
  rw [h]

/-- One entry changes. -/
theorem refs_set (he : e < nenv) (hv : v < userPages) :
    (u.set e v w).refs p + (if (u.spaces e).page v = some p then 1 else 0) =
      u.refs p + (if w.map UserPte.page = some p then 1 else 0) := by
  have hself : ((u.set e v w).spaces e).page v = w.map UserPte.page := by
    unfold Space.page
    rw [set_self]
  have hmem : (e, v) ∈ slots := mem_slots.mpr ⟨he, hv⟩
  have hrest : ∀ r, r ∈ slots → r ≠ (e, v) →
      ((u.set e v w).spaces r.1).page r.2 = (u.spaces r.1).page r.2 := by
    intro r _ hne
    unfold Space.page
    rw [set_of_ne (fun hh => hne (Prod.ext hh.1 hh.2))]
  have h := card_filter_update p hmem hrest
  rw [hself] at h
  unfold refs entries
  exact h

/-- An unmapped entry gets a page. -/
theorem refs_set_some {x : UserPte} (he : e < nenv) (hv : v < userPages)
    (hnone : u.spaces e v = none) :
    (u.set e v (some x)).refs p = u.refs p + (if x.page = p then 1 else 0) := by
  have h := u.refs_set (p := p) (w := some x) he hv
  simpa [Space.page, hnone] using h

end Users

/-! ## One step of a routine -/

namespace LibCode

variable {reserved : Set Nat} {e : Nat} {u u' : Users} {c c' : LibCode}

/-- What one step of a routine does to the address spaces: one entry of its own
space or of a child that it makes is set, to a page of its own or to a new one; or
a slot is made or taken back; or a child starts. -/
inductive Effect (reserved : Set Nat) (e : Nat) (u : Users) : Users → Prop where
  | same : Effect reserved e u u
  | set {y z : Nat} {w : Option UserPte} :
      y = e ∨ u.life y = .embryo e →
      (∀ t, w = some t → t.page ∉ reserved ∨
        ∃ v, v < userPages ∧ (u.spaces e).page v = some t.page) →
      Effect reserved e u (u.set y z w)
  | wipe {y : Nat} {l : Life} :
      u.life y ≠ .alive → l ≠ .alive → (l ≠ .free → y < nenv) →
      Effect reserved e u ((u.setLife y l).setSpace y (fun _ => none))
  | start {y : Nat} :
      u.life y = .embryo e →
      Effect reserved e u (u.setLife y .alive)

theorem Step.effect (hs : Step reserved e c u c' u') : Effect reserved e u u' := by
  cases hs with
  | look => exact .same
  | unmap _ => exact .set (Or.inl rfl) (by simp)
  | unmapFails _ => exact .same
  | map hsrc _ hw _ =>
      refine .set (Or.inl rfl) (fun t ht => Or.inr ⟨_, hsrc, ?_⟩)
      cases ht
      simp [Space.page, hw]
  | mapFails => exact .same
  | alloc _ _ hw => exact .set (Or.inl rfl) (fun t ht => by cases ht; exact Or.inl hw)
  | allocFails => exact .same
  | request => exact .same
  | receive _ hw => exact .set (Or.inl rfl) (fun t ht => by cases ht; exact Or.inl hw)
  | receiveFails => exact .same
  | exofork hc hfree => exact .wipe (by simp [hfree]) (by simp) (fun _ => hc)
  | exoforkFails => exact .same
  | copy hchild hsrc _ hw _ =>
      refine .set (Or.inr hchild) (fun t ht => Or.inr ⟨_, hsrc, ?_⟩)
      cases ht
      simp [Space.page, hw]
  | copyFails => exact .same
  | allocChild hchild _ _ hw =>
      exact .set (Or.inr hchild) (fun t ht => by cases ht; exact Or.inl hw)
  | allocChildFails => exact .same
  | start hchild => exact .start hchild
  | destroy hchild => exact .wipe (by simp [hchild]) (by simp) (by simp)

/-- Slots that are in use are slots. -/
theorem Effect.slot (h : Effect reserved e u u') (hslot : ∀ x, u.life x ≠ .free → x < nenv)
    {x : Nat} (hx : u'.life x ≠ .free) : x < nenv := by
  cases h with
  | same => exact hslot x hx
  | set _ _ => exact hslot x hx
  | @wipe y l _ _ hl =>
      by_cases hxy : x = y
      · subst hxy
        exact hl (by simpa using hx)
      · refine hslot x ?_
        simpa [Users.setLife_of_ne hxy] using hx
  | @start y hy =>
      by_cases hxy : x = y
      · subst hxy
        exact hslot x (by simp [hy])
      · refine hslot x ?_
        simpa [Users.setLife_of_ne hxy] using hx

/-- The space of another environment does not change. -/
theorem Effect.alive (h : Effect reserved e u u') {x : Nat} (hx : u.life x = .alive)
    (hxe : x ≠ e) : u'.life x = .alive ∧ u'.spaces x = u.spaces x := by
  cases h with
  | same => exact ⟨hx, rfl⟩
  | @set y z w hy _ =>
      have hxy : x ≠ y := by
        rintro rfl
        rcases hy with hy | hy
        · exact hxe hy
        · simp [hx] at hy
      exact ⟨hx, Users.set_space_of_ne hxy⟩
  | @wipe y l hy _ _ =>
      have hxy : x ≠ y := by
        rintro rfl
        exact hy hx
      refine ⟨?_, ?_⟩
      · rw [Users.setSpace_life, Users.setLife_of_ne hxy, hx]
      · rw [Users.setSpace_of_ne hxy, Users.setLife_spaces]
  | @start y hy =>
      have hxy : x ≠ y := by
        rintro rfl
        simp [hx] at hy
      exact ⟨by rw [Users.setLife_of_ne hxy, hx], rfl⟩

/-- The environment that runs stays alive. -/
theorem Effect.self (h : Effect reserved e u u') (he : u.life e = .alive) :
    u'.life e = .alive := by
  cases h with
  | same => exact he
  | set _ _ => exact he
  | @wipe y l hy _ _ =>
      have hxy : e ≠ y := by
        rintro rfl
        exact hy he
      rw [Users.setSpace_life, Users.setLife_of_ne hxy, he]
  | @start y hy =>
      have hxy : e ≠ y := by
        rintro rfl
        simp [he] at hy
      rw [Users.setLife_of_ne hxy, he]

end LibCode

end Jos

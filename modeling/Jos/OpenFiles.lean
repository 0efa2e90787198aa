import Jos.Descriptors
import Mathlib.Logic.Relation

/-!
# `fs/serv.c`: the table of open files

The file server keeps a page for every slot of its table and sends it to the
clients that open a file in that slot.  Whether a slot is in use is not recorded:
it is in use if its page has more than the server's own reference.  Clients close,
duplicate and inherit descriptors at any time, one page system call at a time.

`open_table_sound` is the result, for runs in which no page gets `2 ^ 16`
references; `dup` does not look at the new descriptor, so a single client can
exceed that, and `not_open_table_sound` is what follows.
-/

namespace Jos

open Relation

/-- `MAXOPEN`. -/
def maxOpen : Nat := 1024

/-- `PGNUM(opentab[i].o_fd)`. -/
def fdSlot (i : Nat) : Nat := 0xD0000 + i

/-- A file that was handed out: its slot, which use of the slot it is, its `Fd` page
and its id. -/
structure Issue where
  slot : Nat
  nth : Nat
  page : Nat
  id : U32

/-- What a client is doing; one that opens a file waits for a page at `v`. -/
inductive ClientJob where
  | idle
  | lib (c : LibCode)
  | opens (v : Nat)

/-- Where the server stands in `serve_open`, on behalf of client `e`. -/
inductive ServerJob where
  | idle
  | scan (i e : Nat)
  | found (i e : Nat)

/-- The table, the address spaces, and what everybody is doing.  `allocs` counts
how often each slot was allocated, `issued` are all files handed out so far, and
`opened` those of which some client has had a mapping ever since. -/
structure OpenState where
  users : Users
  job : Nat → ClientJob
  server : ServerJob
  fileid : Nat → U32
  allocs : Nat → Nat
  issued : Set Issue
  opened : Set Issue

section Table

variable (fs : Nat)

/-- The page of slot `i`. -/
def slotPage (u : Users) (i : Nat) : Option Nat := (u.spaces fs).page (fdSlot i)

/-- Some client maps page `p`. -/
def ClientMaps (u : Users) (p : Nat) : Prop :=
  ∃ e v, e ≠ fs ∧ e < nenv ∧ v < userPages ∧ (u.spaces e).page v = some p

/-- `openfile_lookup`. -/
def openfileLookup (s : OpenState) (id : U32) : Option Nat :=
  let i := id.toNat % maxOpen
  if s.users.pageref fs (fdSlot i) ≤ 1 ∨ s.fileid i ≠ id then none else some i

namespace OpenState

def setJob (s : OpenState) (e : Nat) (j : ClientJob) : OpenState :=
  { s with job := Function.update s.job e j }

/-- The address spaces change; files that no client maps any more are not open. -/
def setUsers (s : OpenState) (u : Users) : OpenState :=
  { s with users := u, opened := {o | o ∈ s.opened ∧ ClientMaps fs u o.page} }

/-- `opentab[i].o_fileid += MAXOPEN`. -/
def bump (s : OpenState) (i : Nat) : OpenState :=
  { s with
    fileid := Function.update s.fileid i (s.fileid i + 1024#32)
    allocs := Function.update s.allocs i (s.allocs i + 1) }

/-- The end of `openfile_alloc`: a negative id would be taken for an error. -/
def hand (s : OpenState) (i e : Nat) : OpenState :=
  if 0 ≤ (s.fileid i).toInt then { s with server := .found i e }
  else { s.setJob e .idle with server := .idle }

/-- The `Fd` page of slot `i` is mapped at page `v` of client `e`. -/
def reply (s : OpenState) (i e v p : Nat) (perm : U32) : OpenState :=
  let o : Issue := ⟨i, s.allocs i, p, s.fileid i⟩
  let s := { s with issued := insert o s.issued, opened := insert o s.opened }
  { (s.setUsers fs (s.users.set e v (some ⟨p, perm⟩))).setJob e .idle with
    server := .idle }

end OpenState

/-- The calls of a client, besides `open`. -/
inductive ClientCall where
  | close (i : Int)
  | dup (old new : Int)
  | fork

def ClientCall.code (isPipe : Nat → Bool) : ClientCall → LibCode
  | close i => LibCode.close isPipe i
  | dup old new => LibCode.dup isPipe old new
  | fork => LibCode.fork

/-- The pages of the slots. -/
def fdPages (u : Users) : Set Nat := {p | ∃ i, i < maxOpen ∧ slotPage fs u i = some p}

/-- One step of the server or of a client. -/
inductive OpenStep (isPipe : Nat → Bool) : OpenState → OpenState → Prop where
  | call {s : OpenState} {e : Nat} {c : ClientCall} :
      e ≠ fs → s.users.life e = .alive → s.job e = .idle →
      OpenStep isPipe s (s.setJob e (.lib (c.code isPipe)))
  | lib {s : OpenState} {e : Nat} {c c' : LibCode} {u : Users} :
      e ≠ fs → s.users.life e = .alive → s.job e = .lib c →
      LibCode.Step (fdPages fs s.users) e c s.users c' u →
      OpenStep isPipe s ((s.setUsers fs u).setJob e (.lib c'))
  | ret {s : OpenState} {e : Nat} :
      e ≠ fs → s.users.life e = .alive → s.job e = .lib .ret →
      OpenStep isPipe s (s.setJob e .idle)
  | exit {s : OpenState} {e : Nat} :
      e ≠ fs → s.users.life e = .alive →
      OpenStep isPipe s ((s.setUsers fs ((s.users.setLife e .free).setSpace e
        (fun _ => none))).setJob e .idle)
  /-- A client asks for a file; `v` is the page of a free descriptor. -/
  | request {s : OpenState} {e v : Nat} :
      e ≠ fs → s.users.life e = .alive → s.job e = .idle → s.server = .idle →
      v < userPages →
      OpenStep isPipe s { s.setJob e (.opens v) with server := .scan 0 e }
  | scanUsed {s : OpenState} {i e : Nat} :
      s.server = .scan i e → i < maxOpen →
      ¬ s.users.pageref fs (fdSlot i) ≤ 1 →
      OpenStep isPipe s { s with server := .scan (i + 1) e }
  | scanFresh {s : OpenState} {i e : Nat} {w : UserPte} :
      s.server = .scan i e → i < maxOpen → s.users.pageref fs (fdSlot i) = 0 →
      s.users.refs w.page = 0 →
      OpenStep isPipe s
        (((s.setUsers fs (s.users.set fs (fdSlot i) (some w))).bump i).hand i e)
  | scanNoMem {s : OpenState} {i e : Nat} :
      s.server = .scan i e → i < maxOpen → s.users.pageref fs (fdSlot i) = 0 →
      OpenStep isPipe s { s.setJob e .idle with server := .idle }
  | scanFree {s : OpenState} {i e : Nat} :
      s.server = .scan i e → i < maxOpen → s.users.pageref fs (fdSlot i) = 1 →
      OpenStep isPipe s ((s.bump i).hand i e)
  | scanEnd {s : OpenState} {e : Nat} :
      s.server = .scan maxOpen e →
      OpenStep isPipe s { s.setJob e .idle with server := .idle }
  /-- The path cannot be opened. -/
  | openFails {s : OpenState} {i e : Nat} :
      s.server = .found i e →
      OpenStep isPipe s { s.setJob e .idle with server := .idle }
  | reply {s : OpenState} {i e v p : Nat} {perm : U32} :
      s.server = .found i e → s.users.life e = .alive → s.job e = .opens v →
      v < userPages → slotPage fs s.users i = some p →
      OpenStep isPipe s (s.reply fs i e v p perm)

/-- `serve_init`, before any file is open. -/
structure ServeInit (s : OpenState) : Prop where
  server_lt : fs < nenv
  server_alive : s.users.life fs = .alive
  server_idle : s.server = .idle
  slot : ∀ e, s.users.life e ≠ .free → e < nenv
  clients : ∀ e v, s.job e ≠ .opens v
  unmapped : ∀ i, i < maxOpen → slotPage fs s.users i = none
  fileid : ∀ i, s.fileid i = BitVec.ofNat 32 i
  allocs : ∀ i, s.allocs i = 0
  issued : s.issued = ∅
  opened : s.opened = ∅

/-- Every slot has been allocated fewer than `2 ^ 21` times. -/
def FewAllocs (s : OpenState) : Prop := ∀ i, i < maxOpen → s.allocs i < 2 ^ 21

/-- Open files are told apart, ids are recognised exactly while their file is open,
and a slot that would be handed out is not in use. -/
structure OpenSound (s : OpenState) : Prop where
  unused : ∀ i e p, s.server = .scan i e → i < maxOpen →
    s.users.pageref fs (fdSlot i) ≤ 1 → slotPage fs s.users i = some p →
    ¬ ClientMaps fs s.users p
  distinct : ∀ o o', o ∈ s.opened → o' ∈ s.opened → o ≠ o' →
    o.slot ≠ o'.slot ∧ o.page ≠ o'.page ∧ o.id ≠ o'.id
  lookup : ∀ id i, openfileLookup fs s id = some i ↔
    ∃ o, o ∈ s.opened ∧ o.id = id ∧ o.slot = i
  latest : ∀ id i, openfileLookup fs s id = some i ↔
    i = id.toNat % maxOpen ∧ s.fileid i = id ∧
      ∃ p, slotPage fs s.users i = some p ∧ ClientMaps fs s.users p
  stale : ∀ o, o ∈ s.issued → o ∉ s.opened → openfileLookup fs s o.id = none

end Table

/-! ## The invariant -/

section Invariant

variable {fs : Nat} {isPipe : Nat → Bool} {s s' : OpenState} {u : Users} {i j e p : Nat}

theorem fdSlot_lt (hi : i < maxOpen) : fdSlot i < userPages := by
  unfold fdSlot userPages
  unfold maxOpen at hi
  omega

theorem fdSlot_inj (h : fdSlot i = fdSlot j) : i = j := by
  unfold fdSlot at h
  omega

/-- The server maps the page of a slot nowhere else. -/
def OwnSlots (fs : Nat) (u : Users) : Prop :=
  ∀ i p v, i < maxOpen → slotPage fs u i = some p → v < userPages →
    (u.spaces fs).page v = some p → v = fdSlot i

/-- Every page has fewer references than fit. -/
def FewRefs (u : Users) : Prop := ∀ p, u.refs p < 65536

/-- The reference count of a slot's page tells whether a client maps it. -/
theorem refs_le_one_iff (hfs : fs < nenv) (hown : OwnSlots fs u) (hi : i < maxOpen)
    (hp : slotPage fs u i = some p) : u.refs p ≤ 1 ↔ ¬ ClientMaps fs u p := by
  have hslot : (fs, fdSlot i) ∈ u.entries p :=
    Users.mem_entries.mpr ⟨⟨hfs, fdSlot_lt hi⟩, hp⟩
  constructor
  · rintro hle ⟨e, v, hne, he, hv, hpage⟩
    have hclient : (e, v) ∈ u.entries p := Users.mem_entries.mpr ⟨⟨he, hv⟩, hpage⟩
    have heq := Finset.card_le_one.mp hle _ hclient _ hslot
    exact hne (congrArg Prod.fst heq)
  · intro hno
    refine Finset.card_le_one_iff_subset_singleton.mpr ⟨(fs, fdSlot i), ?_⟩
    rintro ⟨e, v⟩ hr
    obtain ⟨⟨he, hv⟩, hpage⟩ := Users.mem_entries.mp hr
    have hefs : e = fs := by
      by_contra hne
      exact hno ⟨e, v, hne, he, hv, hpage⟩
    subst hefs
    rw [hown i p v hi hp hv hpage]
    exact Finset.mem_singleton_self _

/-- `pageref` of a slot tells whether a client maps its page. -/
theorem pageref_le_one_iff (hfs : fs < nenv) (hown : OwnSlots fs u) (hfew : FewRefs u)
    (hi : i < maxOpen) : u.pageref fs (fdSlot i) ≤ 1 ↔
      ∀ p, slotPage fs u i = some p → ¬ ClientMaps fs u p := by
  cases hp : slotPage fs u i with
  | none =>
      have hzero : u.pageref fs (fdSlot i) = 0 := by
        unfold Users.pageref
        change (u.spaces fs).page (fdSlot i) = none at hp
        rw [hp]
      simp [hzero]
  | some p =>
      rw [Users.pageref_of_page hp, Nat.mod_eq_of_lt (hfew p),
        refs_le_one_iff hfs hown hi hp]
      simp

/-- A slot whose `pageref` is zero has no page. -/
theorem slotPage_none (hfs : fs < nenv) (hfew : FewRefs u) (hi : i < maxOpen)
    (hzero : u.pageref fs (fdSlot i) = 0) : slotPage fs u i = none := by
  cases hp : slotPage fs u i with
  | none => rfl
  | some p =>
      rw [Users.pageref_of_page hp, Nat.mod_eq_of_lt (hfew p)] at hzero
      exact absurd hp (Users.refs_eq_zero.mp hzero fs (fdSlot i) hfs (fdSlot_lt hi))

/-- The id that slot `i` has in its `k`th use. -/
def slotId (i k : Nat) : U32 := BitVec.ofNat 32 (i + 1024 * k)

theorem slotId_slot {k : Nat} (hi : i < maxOpen) :
    (slotId i k).toNat % maxOpen = i := by
  unfold slotId
  unfold maxOpen at hi ⊢
  rw [BitVec.toNat_ofNat]
  omega

theorem slotId_succ {k : Nat} : slotId i k + 1024#32 = slotId i (k + 1) := by
  unfold slotId
  apply BitVec.eq_of_toNat_eq
  rw [BitVec.toNat_add, BitVec.toNat_ofNat, BitVec.toNat_ofNat, BitVec.toNat_ofNat]
  omega

theorem slotId_inj {k l : Nat} (hk : k < 2 ^ 21) (hl : l < 2 ^ 21)
    (h : slotId i k = slotId i l) : k = l := by
  have hnat := congrArg BitVec.toNat h
  unfold slotId at hnat
  rw [BitVec.toNat_ofNat, BitVec.toNat_ofNat] at hnat
  omega

/-- A file that was handed out. -/
structure Issued (fs : Nat) (s : OpenState) (o : Issue) : Prop where
  slot_lt : o.slot < maxOpen
  le : o.nth ≤ s.allocs o.slot
  /-- A slot that is about to be handed out has a new id. -/
  lt : ∀ e, s.server = .found o.slot e → o.nth < s.allocs o.slot
  id : o.id = slotId o.slot o.nth
  page : slotPage fs s.users o.slot = some o.page

/-- What every step of the server and of the clients keeps. -/
structure OpenInv (fs : Nat) (s : OpenState) : Prop where
  server_lt : fs < nenv
  server_alive : s.users.life fs = .alive
  slot : ∀ e, s.users.life e ≠ .free → e < nenv
  client : ∀ i e, s.server = .scan i e ∨ s.server = .found i e → e ≠ fs
  own : OwnSlots fs s.users
  fileid : ∀ i, i < maxOpen → s.fileid i = slotId i (s.allocs i)
  issued : ∀ o, o ∈ s.issued → Issued fs s o
  opened : ∀ o, o ∈ s.opened → o ∈ s.issued ∧ o.nth = s.allocs o.slot
  mapped : ∀ o, o ∈ s.opened → ClientMaps fs s.users o.page
  covered : ∀ i p, i < maxOpen → slotPage fs s.users i = some p →
    ClientMaps fs s.users p → ∃ o, o ∈ s.opened ∧ o.slot = i
  found : ∀ i e, s.server = .found i e → i < maxOpen ∧
    ∃ p, slotPage fs s.users i = some p ∧ ¬ ClientMaps fs s.users p

theorem ServeInit.inv (h : ServeInit fs s) : OpenInv fs s where
  server_lt := h.server_lt
  server_alive := h.server_alive
  slot := h.slot
  client := fun i e hor => by simp [h.server_idle] at hor
  own := fun i p v hi hp => by simp [h.unmapped i hi] at hp
  fileid := fun i _ => by
    rw [h.fileid, h.allocs]
    rfl
  issued := fun o ho => by simp [h.issued] at ho
  opened := fun o ho => by simp [h.opened] at ho
  mapped := fun o ho => by simp [h.opened] at ho
  covered := fun i p hi hp => by simp [h.unmapped i hi] at hp
  found := fun i e hs => by simp [h.server_idle] at hs

/-! ## The steps keep it -/

/-! What the table of open files rests on: the pages of the slots, and the ids. -/

section Table

variable {u' : Users} {w : UserPte}

theorem slotPage_eq (h : u.spaces fs = u'.spaces fs) :
    slotPage fs u i = slotPage fs u' i := by
  unfold slotPage
  rw [h]

theorem slotPage_set_of_ne {w : Option UserPte} (h : j ≠ i) :
    slotPage fs (u.set fs (fdSlot i) w) j = slotPage fs u j := by
  unfold slotPage
  rw [Users.set_space_self, Space.page_set_of_ne (fun hj => h (fdSlot_inj hj))]

theorem OwnSlots.congr (h : OwnSlots fs u) (hspace : u'.spaces fs = u.spaces fs) :
    OwnSlots fs u' := by
  intro i p v hi hp hv hpage
  rw [slotPage_eq hspace] at hp
  rw [hspace] at hpage
  exact h i p v hi hp hv hpage

/-- A slot gets a page that is not in use. -/
theorem OwnSlots.fresh (h : OwnSlots fs u) (hfs : fs < nenv) (hw : u.refs w.page = 0) :
    OwnSlots fs (u.set fs (fdSlot i) (some w)) := by
  intro j p v hj hp hv hpage
  have hunused := Users.refs_eq_zero.mp hw fs
  rw [Users.set_space_self] at hpage
  by_cases hji : j = i
  · subst hji
    unfold slotPage at hp
    rw [Users.set_space_self, Space.page_set_self] at hp
    obtain rfl : w.page = p := Option.some.inj hp
    rcases Space.page_set_eq hpage with ⟨hvj, -⟩ | ⟨-, hold⟩
    · exact hvj
    · exact absurd hold (hunused v hfs hv)
  · rw [slotPage_set_of_ne hji] at hp
    rcases Space.page_set_eq hpage with ⟨-, hnew⟩ | ⟨-, hold⟩
    · obtain rfl : w.page = p := Option.some.inj hnew
      exact absurd hp (hunused (fdSlot j) hfs (fdSlot_lt hj))
    · exact h j p v hj hp hv hold

theorem bump_fileid (h : ∀ j, j < maxOpen → s.fileid j = slotId j (s.allocs j)) :
    ∀ j, j < maxOpen → (s.bump i).fileid j = slotId j ((s.bump i).allocs j) := by
  intro j hj
  change Function.update s.fileid i _ j = slotId j (Function.update s.allocs i _ j)
  by_cases hji : j = i
  · subst hji
    rw [Function.update_self, Function.update_self, h j hj, slotId_succ]
  · rw [Function.update_of_ne hji, Function.update_of_ne hji]
    exact h j hj

theorem exit_space (hne : e ≠ fs) :
    ((u.setLife e .free).setSpace e (fun _ => none)).spaces fs = u.spaces fs := by
  rw [Users.setSpace_of_ne (Ne.symm hne), Users.setLife_spaces]

theorem exit_life (hne : e ≠ fs) :
    ((u.setLife e .free).setSpace e (fun _ => none)).life fs = u.life fs := by
  rw [Users.setSpace_life, Users.setLife_of_ne (Ne.symm hne)]

theorem exit_slot (h : ∀ x, u.life x ≠ .free → x < nenv) :
    ∀ x, ((u.setLife e .free).setSpace e (fun _ => none)).life x ≠ .free → x < nenv := by
  intro x hx
  by_cases hxe : x = e
  · subst hxe
    simp at hx
  · rw [Users.setSpace_life, Users.setLife_of_ne hxe] at hx
    exact h x hx

end Table

theorem OpenInv.setJob (h : OpenInv fs s) {k : ClientJob} : OpenInv fs (s.setJob e k) where
  server_lt := h.server_lt
  server_alive := h.server_alive
  slot := h.slot
  client := h.client
  own := h.own
  fileid := h.fileid
  issued := fun o ho => by
    have hk := h.issued o ho
    exact ⟨hk.slot_lt, hk.le, hk.lt, hk.id, hk.page⟩
  opened := h.opened
  mapped := h.mapped
  covered := h.covered
  found := h.found

/-- The server goes on to look for a slot, or is done. -/
theorem OpenInv.moves (h : OpenInv fs s) {t : ServerJob}
    (ht : ∀ i e, t = .scan i e → e ≠ fs) (hnot : ∀ i e, t ≠ .found i e) :
    OpenInv fs { s with server := t } where
  server_lt := h.server_lt
  server_alive := h.server_alive
  slot := h.slot
  client := fun i e hor => hor.elim (ht i e) (fun hf => absurd hf (hnot i e))
  own := h.own
  fileid := h.fileid
  issued := fun o ho => by
    have hk := h.issued o ho
    exact ⟨hk.slot_lt, hk.le, fun e hf => absurd hf (hnot o.slot e), hk.id, hk.page⟩
  opened := h.opened
  mapped := h.mapped
  covered := h.covered
  found := fun i e hf => absurd hf (hnot i e)

theorem OpenInv.idle (h : OpenInv fs s) : OpenInv fs { s with server := .idle } :=
  h.moves (fun _ _ hs => by cases hs) (fun _ _ hs => by cases hs)

/-- The space of the server is left alone, and nobody comes by the page of a slot
that no client had. -/
theorem OpenInv.setUsers (h : OpenInv fs s) (hspace : u.spaces fs = s.users.spaces fs)
    (halive : u.life fs = .alive) (hslot : ∀ e, u.life e ≠ .free → e < nenv)
    (hmaps : ∀ i p, i < maxOpen → slotPage fs s.users i = some p →
      ClientMaps fs u p → ClientMaps fs s.users p) :
    OpenInv fs (s.setUsers fs u) where
  server_lt := h.server_lt
  server_alive := halive
  slot := hslot
  client := h.client
  own := h.own.congr hspace
  fileid := h.fileid
  issued := fun o ho => by
    have hk := h.issued o ho
    exact ⟨hk.slot_lt, hk.le, hk.lt, hk.id, (slotPage_eq hspace).trans hk.page⟩
  opened := fun o ho => h.opened o ho.1
  mapped := fun _ ho => ho.2
  covered := fun i p hi hp hmap => by
    change slotPage fs u i = some p at hp
    rw [slotPage_eq hspace] at hp
    obtain ⟨o, ho, rfl⟩ := h.covered i p hi hp (hmaps i p hi hp hmap)
    have hpage : some o.page = some p := (h.issued o (h.opened o ho).1).page.symm.trans hp
    cases hpage
    exact ⟨o, ⟨ho, hmap⟩, rfl⟩
  found := fun i e hf => by
    obtain ⟨hi, p, hp, hno⟩ := h.found i e hf
    exact ⟨hi, p, (slotPage_eq hspace).trans hp, fun hmap => hno (hmaps i p hi hp hmap)⟩

/-- A routine of a client passes on only what a client has. -/
theorem effect_clientMaps {reserved : Set Nat} (heff : LibCode.Effect reserved e s.users u)
    (hne : e ≠ fs) (he : e < nenv) (hp : p ∈ reserved) (hmap : ClientMaps fs u p) :
    ClientMaps fs s.users p := by
  obtain ⟨x, v, hx, hxlt, hv, hpage⟩ := hmap
  cases heff with
  | same => exact ⟨x, v, hx, hxlt, hv, hpage⟩
  | @set y z w hy hw =>
      by_cases hxy : x = y
      · subst hxy
        rw [Users.set_space_self] at hpage
        rcases Space.page_set_eq hpage with ⟨-, hnew⟩ | ⟨-, hold⟩
        · obtain ⟨t, rfl, rfl⟩ := Option.map_eq_some_iff.mp hnew
          rcases hw t rfl with hfresh | ⟨v', hv', hown⟩
          · exact absurd hp hfresh
          · exact ⟨e, v', hne, he, hv', hown⟩
        · exact ⟨x, v, hx, hxlt, hv, hold⟩
      · rw [Users.set_space_of_ne hxy] at hpage
        exact ⟨x, v, hx, hxlt, hv, hpage⟩
  | @wipe y l _ _ _ =>
      by_cases hxy : x = y
      · subst hxy
        simp [Space.page] at hpage
      · rw [Users.setSpace_of_ne hxy] at hpage
        exact ⟨x, v, hx, hxlt, hv, hpage⟩
  | start _ => exact ⟨x, v, hx, hxlt, hv, hpage⟩

theorem OpenInv.effect (h : OpenInv fs s) (hne : e ≠ fs) (he : s.users.life e = .alive)
    (heff : LibCode.Effect (fdPages fs s.users) e s.users u) :
    OpenInv fs (s.setUsers fs u) := by
  obtain ⟨halive, hspace⟩ := heff.alive h.server_alive (Ne.symm hne)
  refine h.setUsers hspace halive (fun x hx => heff.slot h.slot hx) ?_
  intro i p hi hp hmap
  exact effect_clientMaps heff hne (h.slot e (by simp [he])) ⟨i, hi, hp⟩ hmap

theorem OpenInv.exit (h : OpenInv fs s) (hne : e ≠ fs) :
    OpenInv fs (s.setUsers fs
      ((s.users.setLife e .free).setSpace e (fun _ => none))) := by
  refine h.setUsers (exit_space hne) ((exit_life hne).trans h.server_alive) (exit_slot h.slot) ?_
  rintro i p - - ⟨x, v, hx, hxlt, hv, hpage⟩
  by_cases hxe : x = e
  · subst hxe
    simp [Space.page] at hpage
  · rw [Users.setSpace_of_ne hxe] at hpage
    exact ⟨x, v, hx, hxlt, hv, hpage⟩

/-- Mappings of the server do not count. -/
theorem clientMaps_set {v : Nat} {w : Option UserPte} :
    ClientMaps fs (u.set fs v w) p ↔ ClientMaps fs u p := by
  have hspace : ∀ x, x ≠ fs → (u.set fs v w).spaces x = u.spaces x :=
    fun x hx => Users.set_space_of_ne hx
  constructor
  · rintro ⟨x, v', hx, hlt, hv, hpage⟩
    rw [hspace x hx] at hpage
    exact ⟨x, v', hx, hlt, hv, hpage⟩
  · rintro ⟨x, v', hx, hlt, hv, hpage⟩
    rw [← hspace x hx] at hpage
    exact ⟨x, v', hx, hlt, hv, hpage⟩

/-- A page that is not in use becomes the page of a slot that had none. -/
theorem OpenInv.fresh (h : OpenInv fs s) (hscan : s.server = .scan i e)
    (hnone : slotPage fs s.users i = none) {w : UserPte}
    (hw : s.users.refs w.page = 0) :
    OpenInv fs (s.setUsers fs (s.users.set fs (fdSlot i) (some w))) where
  server_lt := h.server_lt
  server_alive := h.server_alive
  slot := h.slot
  client := h.client
  own := h.own.fresh h.server_lt hw
  fileid := h.fileid
  issued := fun o ho => by
    have hk := h.issued o ho
    refine ⟨hk.slot_lt, hk.le, hk.lt, hk.id, ?_⟩
    have hne : o.slot ≠ i := fun heq => by simp [← heq, hk.page] at hnone
    exact (slotPage_set_of_ne hne).trans hk.page
  opened := fun o ho => h.opened o ho.1
  mapped := fun _ ho => ho.2
  covered := fun j p hj hp hmap => by
    change slotPage fs (s.users.set fs (fdSlot i) (some w)) j = some p at hp
    change ClientMaps fs (s.users.set fs (fdSlot i) (some w)) p at hmap
    have hold := clientMaps_set.mp hmap
    by_cases hji : j = i
    · subst hji
      unfold slotPage at hp
      rw [Users.set_space_self, Space.page_set_self] at hp
      obtain rfl : w.page = p := Option.some.inj hp
      obtain ⟨x, v, -, hlt, hv, hpage⟩ := hold
      exact absurd hpage (Users.refs_eq_zero.mp hw x v hlt hv)
    · rw [slotPage_set_of_ne hji] at hp
      obtain ⟨o, ho, rfl⟩ := h.covered j p hj hp hold
      have hpage : some o.page = some p := (h.issued o (h.opened o ho).1).page.symm.trans hp
      cases hpage
      exact ⟨o, ⟨ho, hmap⟩, rfl⟩
  found := fun j x hf => by
    change s.server = .found j x at hf
    simp [hscan] at hf

/-- The files that are open are in other slots than one that no client maps. -/
theorem OpenInv.slot_ne (h : OpenInv fs s) (hp : slotPage fs s.users i = some p)
    (hno : ¬ ClientMaps fs s.users p) {o : Issue} (ho : o ∈ s.opened) : o.slot ≠ i := by
  rintro rfl
  have hpage : some o.page = some p := (h.issued o (h.opened o ho).1).page.symm.trans hp
  cases hpage
  exact hno (h.mapped o ho)

/-- A slot that nobody uses is taken, with the next id. -/
theorem OpenInv.take (h : OpenInv fs s) (hscan : s.server = .scan i e) (hi : i < maxOpen)
    (hp : slotPage fs s.users i = some p) (hno : ¬ ClientMaps fs s.users p) :
    OpenInv fs { s.bump i with server := .found i e } where
  server_lt := h.server_lt
  server_alive := h.server_alive
  slot := h.slot
  client := fun j x hor => by
    have hx : e = x := by
      rcases hor with hs | hf
      · cases hs
      · cases hf
        rfl
    exact hx ▸ h.client i e (Or.inl hscan)
  own := h.own
  fileid := bump_fileid h.fileid
  issued := fun o ho => by
    have hk := h.issued o ho
    have hlt : o.slot = i → o.nth < (s.bump i).allocs o.slot := by
      intro heq
      change o.nth < Function.update s.allocs i _ o.slot
      rw [heq, Function.update_self, ← heq]
      exact Nat.lt_succ_of_le hk.le
    refine ⟨hk.slot_lt, ?_, fun x hf => ?_, hk.id, hk.page⟩
    · by_cases hoi : o.slot = i
      · exact Nat.le_of_lt (hlt hoi)
      · change o.nth ≤ Function.update s.allocs i _ o.slot
        rw [Function.update_of_ne hoi]
        exact hk.le
    · change ServerJob.found i e = .found o.slot x at hf
      cases hf
      exact hlt rfl
  opened := fun o ho => by
    have hoi : o.slot ≠ i := h.slot_ne hp hno ho
    have hallocs : (s.bump i).allocs o.slot = s.allocs o.slot := Function.update_of_ne hoi _ _
    exact ⟨(h.opened o ho).1, (h.opened o ho).2.trans hallocs.symm⟩
  mapped := h.mapped
  covered := h.covered
  found := fun j x hf => by
    cases hf
    exact ⟨hi, p, hp, hno⟩

theorem OpenInv.hand (h : OpenInv fs { s with server := .found i e }) :
    OpenInv fs (s.hand i e) := by
  unfold OpenState.hand
  split
  · exact h
  · exact (h.setJob (k := .idle) (e := e)).idle

/-- The page of the slot is mapped at the client. -/
theorem clientMaps_reply {v : Nat} {w : UserPte} {q : Nat} (hq : q ≠ w.page)
    (hmap : ClientMaps fs (u.set e v (some w)) q) : ClientMaps fs u q := by
  obtain ⟨x, v', hx, hlt, hv, hpage⟩ := hmap
  by_cases hxe : x = e
  · subst hxe
    rw [Users.set_space_self] at hpage
    rcases Space.page_set_eq hpage with ⟨-, hnew⟩ | ⟨-, hold⟩
    · exact absurd (Option.some.inj hnew).symm hq
    · exact ⟨x, v', hx, hlt, hv, hold⟩
  · rw [Users.set_space_of_ne hxe] at hpage
    exact ⟨x, v', hx, hlt, hv, hpage⟩

theorem OpenInv.reply (h : OpenInv fs s) (hf : s.server = .found i e)
    (he : s.users.life e = .alive) {v : Nat} (hv : v < userPages)
    (hp : slotPage fs s.users i = some p) {perm : U32} :
    OpenInv fs (s.reply fs i e v p perm) := by
  obtain ⟨hi, p', hp', hno⟩ := h.found i e hf
  obtain rfl : p = p' := Option.some.inj (hp.symm.trans hp')
  have hne : e ≠ fs := h.client i e (Or.inr hf)
  have hspace : (s.users.set e v (some ⟨p, perm⟩)).spaces fs = s.users.spaces fs :=
    Users.set_space_of_ne (Ne.symm hne)
  have hmaps : ClientMaps fs (s.users.set e v (some ⟨p, perm⟩)) p := by
    refine ⟨e, v, hne, h.slot e (by simp [he]), hv, ?_⟩
    rw [Users.set_space_self, Space.page_set_self]
    rfl
  have hpages : ∀ j q, j < maxOpen → slotPage fs s.users j = some q → q = p → j = i := by
    rintro j q hj hq rfl
    exact fdSlot_inj (h.own i q (fdSlot j) hi hp (fdSlot_lt hj) hq)
  have hissue : Issued fs (s.reply fs i e v p perm) ⟨i, s.allocs i, p, s.fileid i⟩ :=
    ⟨hi, Nat.le_refl _, (fun x hx => nomatch hx), h.fileid i hi,
      (slotPage_eq hspace).trans hp⟩
  exact {
    server_lt := h.server_lt
    server_alive := h.server_alive
    slot := h.slot
    client := fun j x hor => hor.elim (fun hs => nomatch hs) (fun hs => nomatch hs)
    own := h.own.congr hspace
    fileid := h.fileid
    issued := fun o ho => by
      rcases ho with rfl | ho
      · exact hissue
      · have hk := h.issued o ho
        exact ⟨hk.slot_lt, hk.le, (fun x hx => nomatch hx), hk.id,
          (slotPage_eq hspace).trans hk.page⟩
    opened := fun o ho => by
      rcases ho.1 with rfl | hold
      · exact ⟨Or.inl rfl, rfl⟩
      · exact ⟨Or.inr (h.opened o hold).1, (h.opened o hold).2⟩
    mapped := fun _ ho => ho.2
    covered := fun j q hj hq hmap => by
      change slotPage fs (s.users.set e v (some ⟨p, perm⟩)) j = some q at hq
      change ClientMaps fs (s.users.set e v (some ⟨p, perm⟩)) q at hmap
      rw [slotPage_eq hspace] at hq
      by_cases hqp : q = p
      · obtain rfl := hpages j q hj hq hqp
        exact ⟨⟨j, s.allocs j, p, s.fileid j⟩, ⟨Or.inl rfl, hmaps⟩, rfl⟩
      · obtain ⟨o, ho, rfl⟩ := h.covered j q hj hq (clientMaps_reply hqp hmap)
        have hpage : some o.page = some q := (h.issued o (h.opened o ho).1).page.symm.trans hq
        cases hpage
        exact ⟨o, ⟨Or.inr ho, hmap⟩, rfl⟩
    found := fun j x hx => nomatch hx }

theorem OpenInv.step (h : OpenInv fs s) (hfew : FewRefs s.users)
    (hstep : OpenStep fs isPipe s s') : OpenInv fs s' := by
  cases hstep with
  | call _ _ _ => exact h.setJob
  | lib hne he _ hs => exact (h.effect hne he hs.effect).setJob
  | ret _ _ _ => exact h.setJob
  | exit hne _ => exact (h.exit hne).setJob
  | @request e v hne _ _ _ _ =>
      refine h.setJob.moves (fun i x hs => ?_) (fun i x hs => nomatch hs)
      cases hs
      exact hne
  | @scanUsed i e hscan _ _ =>
      refine h.moves (fun j x hs => ?_) (fun j x hs => nomatch hs)
      cases hs
      exact h.client i e (Or.inl hscan)
  | @scanFresh i e w hscan hi hzero hw =>
      have hnone := slotPage_none h.server_lt hfew hi hzero
      have hfresh := h.fresh hscan hnone hw
      have hpage : slotPage fs (s.users.set fs (fdSlot i) (some w)) i = some w.page := by
        unfold slotPage
        rw [Users.set_space_self, Space.page_set_self]
        rfl
      refine OpenInv.hand (hfresh.take hscan hi hpage ?_)
      change ¬ ClientMaps fs (s.users.set fs (fdSlot i) (some w)) w.page
      rw [clientMaps_set]
      rintro ⟨x, v, -, hlt, hv, hused⟩
      exact Users.refs_eq_zero.mp hw x v hlt hv hused
  | scanNoMem _ _ _ => exact h.setJob.idle
  | @scanFree i e hscan hi hone =>
      have hno := (pageref_le_one_iff h.server_lt h.own hfew hi).mp (by omega)
      cases hp : slotPage fs s.users i with
      | none =>
          unfold Users.pageref at hone
          change (s.users.spaces fs).page (fdSlot i) = none at hp
          rw [hp] at hone
          simp at hone
      | some p => exact OpenInv.hand (h.take hscan hi hp (hno p hp))
  | scanEnd _ => exact h.setJob.idle
  | openFails _ => exact h.setJob.idle
  | reply hf he _ hv hp => exact h.reply hf he hv hp

/-! ## What it says -/

theorem lookup_iff {id : U32} : openfileLookup fs s id = some i ↔
    i = id.toNat % maxOpen ∧ ¬ s.users.pageref fs (fdSlot i) ≤ 1 ∧ s.fileid i = id := by
  unfold openfileLookup
  simp only
  split
  case isTrue h =>
    constructor
    · intro hsome
      cases hsome
    · rintro ⟨rfl, hused, hid⟩
      exact absurd hid (h.resolve_left hused)
  case isFalse h =>
    rw [not_or, not_not] at h
    constructor
    · intro hsome
      obtain rfl : id.toNat % maxOpen = i := Option.some.inj hsome
      exact ⟨rfl, h⟩
    · rintro ⟨rfl, -⟩
      rfl

/-- A file that is open has the current id of its slot. -/
theorem OpenInv.opened_id (h : OpenInv fs s) {o : Issue} (ho : o ∈ s.opened) :
    o.id = s.fileid o.slot := by
  obtain ⟨hmem, hnth⟩ := h.opened o ho
  have hk := h.issued o hmem
  rw [hk.id, hnth, h.fileid _ hk.slot_lt]

section Sound

variable (h : OpenInv fs s) (hfew : FewRefs s.users)

include h hfew

/-- An id is recognised if it is the last one of a slot whose page a client maps. -/
theorem OpenInv.lookup_iff_clientMaps {id : U32} : openfileLookup fs s id = some i ↔
    i = id.toNat % maxOpen ∧ s.fileid i = id ∧
      ∃ p, slotPage fs s.users i = some p ∧ ClientMaps fs s.users p := by
  rw [lookup_iff]
  have hmod : i = id.toNat % maxOpen → i < maxOpen := by
    rintro rfl
    exact Nat.mod_lt _ (by decide)
  constructor
  · rintro ⟨hi, hused, hid⟩
    rw [pageref_le_one_iff h.server_lt h.own hfew (hmod hi)] at hused
    push Not at hused
    exact ⟨hi, hid, hused⟩
  · rintro ⟨hi, hid, p, hp, hmap⟩
    refine ⟨hi, ?_, hid⟩
    rw [pageref_le_one_iff h.server_lt h.own hfew (hmod hi)]
    exact fun hno => hno p hp hmap

/-- An id is recognised if its file is open. -/
theorem OpenInv.lookup_iff_opened {id : U32} : openfileLookup fs s id = some i ↔
    ∃ o, o ∈ s.opened ∧ o.id = id ∧ o.slot = i := by
  rw [h.lookup_iff_clientMaps hfew]
  constructor
  · rintro ⟨hi, hid, p, hp, hmap⟩
    have hlt : i < maxOpen := hi ▸ Nat.mod_lt _ (by decide)
    obtain ⟨o, ho, rfl⟩ := h.covered i p hlt hp hmap
    refine ⟨o, ho, ?_, rfl⟩
    rw [h.opened_id ho, hid]
  · rintro ⟨o, ho, rfl, rfl⟩
    have hk := h.issued o (h.opened o ho).1
    refine ⟨?_, (h.opened_id ho).symm, o.page, hk.page, h.mapped o ho⟩
    rw [hk.id, slotId_slot hk.slot_lt]

omit hfew in
/-- Files that are open at the same time share neither slot nor page nor id. -/
theorem OpenInv.distinct {o o' : Issue} (ho : o ∈ s.opened) (ho' : o' ∈ s.opened)
    (hne : o ≠ o') : o.slot ≠ o'.slot ∧ o.page ≠ o'.page ∧ o.id ≠ o'.id := by
  have hk := h.issued o (h.opened o ho).1
  have hk' := h.issued o' (h.opened o' ho').1
  have hslot : o.slot ≠ o'.slot := by
    intro heq
    have hnth : o.nth = o'.nth := by
      rw [(h.opened o ho).2, (h.opened o' ho').2, heq]
    have hpage : o.page = o'.page :=
      Option.some.inj (hk.page.symm.trans (heq ▸ hk'.page))
    have hid : o.id = o'.id := by
      rw [h.opened_id ho, h.opened_id ho', heq]
    cases o
    cases o'
    simp_all
  refine ⟨hslot, fun heq => ?_, fun heq => ?_⟩
  · have hpage : slotPage fs s.users o'.slot = some o.page := heq ▸ hk'.page
    exact hslot (fdSlot_inj
      (h.own o'.slot o.page (fdSlot o.slot) hk'.slot_lt hpage (fdSlot_lt hk.slot_lt) hk.page))
  · rw [← slotId_slot hk.slot_lt, ← slotId_slot hk'.slot_lt, ← hk.id, ← hk'.id, heq] at hslot
    exact hslot rfl

/-- The id of a file that is not open any more is rejected. -/
theorem OpenInv.stale (hallocs : FewAllocs s) {o : Issue} (ho : o ∈ s.issued)
    (hclosed : o ∉ s.opened) : openfileLookup fs s o.id = none := by
  cases hi : openfileLookup fs s o.id with
  | none => rfl
  | some i =>
      obtain ⟨o', ho', hid, rfl⟩ := (h.lookup_iff_opened hfew).mp hi
      have hk := h.issued o ho
      obtain ⟨hmem, hnth⟩ := h.opened o' ho'
      have hk' := h.issued o' hmem
      have hslot : o'.slot = o.slot := by
        rw [← slotId_slot hk'.slot_lt, ← slotId_slot hk.slot_lt, ← hk.id, ← hk'.id, hid]
      have hpage : o'.page = o.page := by
        have hp := hk'.page
        rw [hslot, hk.page] at hp
        exact (Option.some.inj hp).symm
      have hlt : s.allocs o.slot < 2 ^ 21 := hallocs o.slot hk.slot_lt
      have huse : o'.nth = o.nth := by
        have hids : slotId o.slot o'.nth = slotId o.slot o.nth := by
          rw [← hk.id, ← hid, hk'.id, hslot]
        refine slotId_inj ?_ ?_ hids
        · rw [hnth, hslot]
          exact hlt
        · exact Nat.lt_of_le_of_lt hk.le hlt
      have heq : o' = o := by
        cases o
        cases o'
        simp_all
      exact absurd (heq ▸ ho') hclosed

end Sound

theorem OpenInv.sound (h : OpenInv fs s) (hfew : FewRefs s.users) (hallocs : FewAllocs s) :
    OpenSound fs s where
  unused := fun _ _ p _ hi hle hp =>
    (pageref_le_one_iff h.server_lt h.own hfew hi).mp hle p hp
  distinct := fun _ _ => h.distinct
  lookup := fun _ _ => h.lookup_iff_opened hfew
  latest := fun _ _ => h.lookup_iff_clientMaps hfew
  stale := fun _ => h.stale hfew hallocs

/-- In a run in which no page gets `2 ^ 16` references the table of open files is
sound. -/
theorem open_table_sound {fs : Nat} {isPipe : Nat → Bool} {s₀ s : OpenState}
    (hinit : ServeInit fs s₀) (hfew : FewRefs s₀.users)
    (hrun : ReflTransGen (fun s s' => OpenStep fs isPipe s s' ∧ FewRefs s'.users) s₀ s)
    (hallocs : FewAllocs s) : OpenSound fs s := by
  have hinv : OpenInv fs s ∧ FewRefs s.users := by
    clear hallocs
    induction hrun with
    | refl => exact ⟨hinit.inv, hfew⟩
    | tail _ hstep ih => exact ⟨ih.1.step ih.2 hstep.1, hstep.2⟩
  exact hinv.1.sound hinv.2 hallocs

end Invariant

/-! ## A file with too many descriptors -/

/-- The server and one client, with empty address spaces. -/
def freshUsers : Users where
  spaces := fun _ _ => none
  life := fun e => if e ≤ 1 then .alive else .free

def openInit : OpenState where
  users := freshUsers
  job := fun _ => .idle
  server := .idle
  fileid := fun i => BitVec.ofNat 32 i
  allocs := fun _ => 0
  issued := ∅
  opened := ∅

theorem openInit_serveInit : ServeInit 0 openInit where
  server_lt := by decide
  server_alive := rfl
  server_idle := rfl
  slot := fun e he => by
    by_cases hle : e ≤ 1
    · have hlt : 1 < nenv := by decide
      omega
    · simp [openInit, freshUsers, hle] at he
  clients := fun _ _ hj => nomatch hj
  unmapped := fun _ _ => rfl
  fileid := fun _ => rfl
  allocs := fun _ => rfl
  issued := rfl
  opened := rfl

/-- The client has a descriptor of the file in slot 0, and `k` duplicates of it. -/
structure Duplicates (k : Nat) (s : OpenState) : Prop where
  alive : s.users.life 1 = .alive
  idle : s.job 1 = .idle
  fileid : s.fileid 0 = 1024#32
  allocs : ∀ i, s.allocs i ≤ 1
  page : slotPage 0 s.users 0 = some 5
  fd : s.users.spaces 1 0xD0000 = some ⟨5, 7#32⟩
  data : s.users.spaces 1 0xD0020 = none
  rest : ∀ v, 0xD0040 + k ≤ v → s.users.spaces 1 v = none
  refs : s.users.refs 5 = 2 + k

/-- The page of the client's first descriptor and that of its buffer. -/
theorem fdPage_zero : fdPage 0 = 0xD0000 := by decide

theorem dataPage_zero : dataPage 0 = 0xD0020 := by decide

/-- No page is in use. -/
theorem freshUsers_refs {p : Nat} : freshUsers.refs p = 0 := by
  rw [Users.refs_eq_zero]
  intro e v _ _ h
  cases h

theorem hand_found {s : OpenState} {i e : Nat} (h : 0 ≤ (s.fileid i).toInt) :
    s.hand i e = { s with server := .found i e } := if_pos h

theorem setJob_job {s : OpenState} {e : Nat} {j : ClientJob} : (s.setJob e j).job e = j :=
  Function.update_self _ _ _

/-- The client opens a file. -/
theorem opens_file : ∃ s, ReflTransGen
    (fun s s' => OpenStep 0 (fun _ => false) s s' ∧ FewRefs s'.users) openInit s ∧
      Duplicates 0 s := by
  let w : UserPte := ⟨5, 7#32⟩
  let s₁ : OpenState := { openInit.setJob 1 (.opens 0xD0000) with server := .scan 0 1 }
  let u₂ := freshUsers.set 0 (fdSlot 0) (some w)
  let s₂ : OpenState := { (s₁.setUsers 0 u₂).bump 0 with server := .found 0 1 }
  let u₃ := u₂.set 1 0xD0000 (some w)
  have hrefs₂ : ∀ p, u₂.refs p = if 5 = p then 1 else 0 := by
    intro p
    have h := Users.refs_set_some (u := freshUsers) (e := 0) (v := fdSlot 0) (p := p)
      (x := w) (by decide) (by decide) rfl
    rw [freshUsers_refs, Nat.zero_add] at h
    exact h
  have hrefs₃ : ∀ p, u₃.refs p = (if 5 = p then 1 else 0) + (if 5 = p then 1 else 0) := by
    intro p
    have h := Users.refs_set_some (u := u₂) (e := 1) (v := 0xD0000) (p := p)
      (x := w) (by decide) (by decide) rfl
    rw [hrefs₂] at h
    exact h
  have hrequest : OpenStep 0 (fun _ => false) openInit s₁ :=
    .request (by decide) rfl rfl rfl (by decide)
  have hid : ((s₁.setUsers 0 u₂).bump 0).fileid 0 = 1024#32 := by
    change Function.update openInit.fileid 0 (openInit.fileid 0 + 1024#32) 0 = _
    rw [Function.update_self]
    rfl
  have hscan : OpenStep 0 (fun _ => false) s₁ s₂ := by
    have h : OpenStep 0 (fun _ => false) s₁ (((s₁.setUsers 0 u₂).bump 0).hand 0 1) :=
      .scanFresh rfl (by decide) rfl freshUsers_refs
    rw [hand_found (by rw [hid]; decide)] at h
    exact h
  have hpage : slotPage 0 u₂ 0 = some 5 := by
    unfold slotPage
    rw [Users.set_space_self, Space.page_set_self]
    rfl
  have hjob : s₂.job 1 = .opens 0xD0000 :=
    setJob_job (s := openInit) (e := 1) (j := .opens 0xD0000)
  have hreply : OpenStep 0 (fun _ => false) s₂ (s₂.reply 0 0 1 0xD0000 5 7#32) :=
    .reply rfl rfl hjob (by decide) hpage
  have hspace : u₃.spaces 1 = (freshUsers.spaces 1).set 0xD0000 (some w) := by
    rw [Users.set_space_self, Users.set_space_of_ne (by decide)]
  have hrest : ∀ v, v ≠ 0xD0000 → u₃.spaces 1 v = none := by
    intro v hv
    rw [hspace, Space.set_of_ne hv]
    rfl
  refine ⟨s₂.reply 0 0 1 0xD0000 5 7#32, ?_, ?_⟩
  · refine .head ⟨hrequest, fun p => ?_⟩ (.head ⟨hscan, fun p => ?_⟩
      (.single ⟨hreply, fun p => ?_⟩))
    · change freshUsers.refs p < 65536
      rw [freshUsers_refs]
      decide
    · change u₂.refs p < 65536
      rw [hrefs₂]
      split <;> decide
    · change u₃.refs p < 65536
      rw [hrefs₃]
      split <;> decide
  · exact {
      alive := rfl
      idle := setJob_job (s := s₂) (e := 1) (j := .idle)
      fileid := hid
      allocs := fun i => by
        change Function.update openInit.allocs 0 1 i ≤ 1
        by_cases hi : i = 0
        · rw [hi, Function.update_self]
        · rw [Function.update_of_ne hi]
          exact Nat.zero_le 1
      page := by
        change slotPage 0 u₃ 0 = some 5
        unfold slotPage
        rw [Users.set_space_of_ne (by decide)]
        exact hpage
      fd := by
        change u₃.spaces 1 0xD0000 = _
        rw [hspace, Space.set_self]
      data := hrest 0xD0020 (by decide)
      rest := fun v hv => hrest v (by omega)
      refs := by
        change u₃.refs 5 = 2 + 0
        rw [hrefs₃]
        rfl }

section Dup

variable {s : OpenState} {k : Nat}

/-- The client reads an entry of its page table. -/
def OpenState.looked (s : OpenState) (c : LibCode) : OpenState :=
  (s.setUsers 0 s.users).setJob 1 (.lib c)

theorem look_next {v : Nat} {next : Option UserPte → LibCode} {w : Option UserPte}
    (halive : s.users.life 1 = .alive) (hj : s.job 1 = .lib (.look v next))
    (hw : s.users.spaces 1 v = w) :
    OpenStep 0 (fun _ => false) s (s.looked (next w)) :=
  hw ▸ .lib (by decide) halive hj .look

/-- `dup` of the first descriptor to one that does not exist. -/
theorem dup_far {new : Int} (hnew : 32 ≤ new) :
    LibCode.dup (fun _ => false) 0 new = .look 0xD0000 (fun w =>
      match w with
      | none => .ret
      | some _ => .look 0xD0020 (fun w =>
          match w with
          | none => LibCode.dupFd 0 new
          | some w => .map 0xD0020 (dataPage new) (w.perm &&& pteSyscall)
              (fun ok => if ok then LibCode.dupFd 0 new else LibCode.dupErr new))) := by
  have hclose : LibCode.close (fun _ => false) new = .ret := by
    unfold LibCode.close LibCode.fdLookup
    refine if_neg ?_
    have hmax : ((maxFd : Nat) : Int) = 32 := rfl
    omega
  unfold LibCode.dup
  rw [hclose, dataPage_zero]
  unfold LibCode.fdLookup
  rw [if_pos (by decide), fdPage_zero]
  rfl

theorem dupFd_far {new : Int} : LibCode.dupFd 0 new = .look 0xD0000 (fun w =>
      match w with
      | none => LibCode.dupErr new
      | some w => .map 0xD0000 (fdPage new) (w.perm &&& pteSyscall)
          (fun ok => if ok then .ret else LibCode.dupErr new)) := by
  rw [← fdPage_zero]
  rfl

/-- Another duplicate, beyond the table of descriptors. -/
theorem Duplicates.next (h : Duplicates k s) (hk : k < 65534) :
    ∃ s', ReflTransGen (OpenStep 0 (fun _ => false)) s s' ∧ Duplicates (k + 1) s' := by
  have hnew : (32 : Int) ≤ 64 + (k : Int) := by omega
  have hpage : fdPage (64 + (k : Int)) = 0xD0040 + k := by
    unfold fdPage
    omega
  let code := LibCode.dup (fun _ => false) 0 (64 + (k : Int))
  let last : LibCode := .map 0xD0000 (0xD0040 + k) (7#32 &&& pteSyscall)
    (fun ok => if ok then .ret else LibCode.dupErr (64 + (k : Int)))
  let s₁ := s.setJob 1 (.lib code)
  let s₂ := s₁.looked (.look 0xD0020 (fun w =>
    match w with
    | none => LibCode.dupFd 0 (64 + (k : Int))
    | some w => .map 0xD0020 (dataPage (64 + (k : Int))) (w.perm &&& pteSyscall)
        (fun ok => if ok then LibCode.dupFd 0 (64 + (k : Int))
          else LibCode.dupErr (64 + (k : Int)))))
  let s₃ := s₂.looked (LibCode.dupFd 0 (64 + (k : Int)))
  let s₄ := s₃.looked last
  let u := s.users.set 1 (0xD0040 + k) (some ⟨5, 7#32 &&& pteSyscall⟩)
  let s₅ := (s₄.setUsers 0 u).setJob 1 (.lib .ret)
  have hcall : OpenStep 0 (fun _ => false) s s₁ :=
    .call (c := .dup 0 (64 + (k : Int))) (by decide) h.alive h.idle
  have hfirst : OpenStep 0 (fun _ => false) s₁ s₂ :=
    look_next (s := s₁) h.alive (setJob_job.trans (congrArg _ (dup_far hnew))) h.fd
  have hsecond : OpenStep 0 (fun _ => false) s₂ s₃ :=
    look_next (s := s₂) h.alive setJob_job h.data
  have hthird : OpenStep 0 (fun _ => false) s₃ s₄ := by
    have hlook := look_next (s := s₃) h.alive
      (setJob_job.trans (congrArg _ dupFd_far)) h.fd
    rw [hpage] at hlook
    exact hlook
  have hmap : OpenStep 0 (fun _ => false) s₄ s₅ := by
    refine .lib (by decide) h.alive setJob_job ?_
    exact .map (by decide) (by unfold userPages; omega) h.fd (by decide)
  have hret : OpenStep 0 (fun _ => false) s₅ (s₅.setJob 1 .idle) :=
    .ret (by decide) h.alive setJob_job
  have hspace : u.spaces 1 = (s.users.spaces 1).set (0xD0040 + k)
      (some ⟨5, 7#32 &&& pteSyscall⟩) := Users.set_space_self
  refine ⟨s₅.setJob 1 .idle, .head hcall (.head hfirst (.head hsecond (.head hthird
    (.head hmap (.single hret))))), ?_⟩
  exact {
    alive := h.alive
    idle := setJob_job
    fileid := h.fileid
    allocs := h.allocs
    page := by
      change slotPage 0 u 0 = some 5
      unfold slotPage
      rw [Users.set_space_of_ne (by decide)]
      exact h.page
    fd := by
      change u.spaces 1 0xD0000 = _
      rw [hspace, Space.set_of_ne (by omega)]
      exact h.fd
    data := by
      change u.spaces 1 0xD0020 = _
      rw [hspace, Space.set_of_ne (by omega)]
      exact h.data
    rest := fun v hv => by
      change u.spaces 1 v = _
      rw [hspace, Space.set_of_ne (by omega)]
      exact h.rest v (by omega)
    refs := by
      change u.refs 5 = _
      have hrefs := Users.refs_set_some (u := s.users) (e := 1) (v := 0xD0040 + k) (p := 5)
        (x := ⟨5, 7#32 &&& pteSyscall⟩) (by decide) (by unfold userPages; omega)
        (h.rest _ (Nat.le_refl _))
      rw [hrefs, h.refs]
      rfl }

theorem Duplicates.many (h : Duplicates 0 s) : ∀ k, k ≤ 65534 →
    ∃ s', ReflTransGen (OpenStep 0 (fun _ => false)) s s' ∧ Duplicates k s' := by
  intro k
  induction k with
  | zero => exact fun _ => ⟨s, .refl, h⟩
  | succ k ih =>
      intro hk
      obtain ⟨s₁, hrun, hdup⟩ := ih (by omega)
      obtain ⟨s₂, hnext, hdup'⟩ := hdup.next (by omega)
      exact ⟨s₂, hrun.trans hnext, hdup'⟩

end Dup

/-- A client duplicates its descriptor until the reference count is zero: the file is
open, and its id is rejected. -/
theorem not_open_table_sound : ¬ ∀ (fs : Nat) (isPipe : Nat → Bool) (s₀ s : OpenState),
    ServeInit fs s₀ → ReflTransGen (OpenStep fs isPipe) s₀ s → FewAllocs s →
    OpenSound fs s := by
  intro hall
  obtain ⟨s₁, hopen, hdup⟩ := opens_file
  obtain ⟨s₂, hmany, hfull⟩ := hdup.many 65534 (Nat.le_refl _)
  have hopen' : ReflTransGen (OpenStep 0 (fun _ => false)) openInit s₁ :=
    ReflTransGen.mono (fun _ _ h => h.1) _ _ hopen
  have hsound := hall 0 (fun _ => false) openInit s₂ openInit_serveInit
    (hopen'.trans hmany) (fun i _ => by
      have hle := hfull.allocs i
      have hlt : 1 < 2 ^ 21 := by decide
      omega)
  have hclient : ClientMaps 0 s₂.users 5 := by
    refine ⟨1, 0xD0000, by decide, by decide, by decide, ?_⟩
    unfold Space.page
    rw [hfull.fd]
    rfl
  have hlookup := (hsound.latest 1024#32 0).mpr
    ⟨by decide, hfull.fileid, 5, hfull.page, hclient⟩
  have hzero : s₂.users.pageref 0 (fdSlot 0) = 0 := by
    rw [Users.pageref_of_page hfull.page, hfull.refs]
  exact (lookup_iff.mp hlookup).2.1 (by omega)

/-- A client has a file open. -/
theorem open_table_sound_opened : ∃ s, s.users.refs 5 = 2 ∧ OpenSound 0 s := by
  obtain ⟨s, hrun, hdup⟩ := opens_file
  refine ⟨s, hdup.refs, open_table_sound openInit_serveInit (fun p => ?_) hrun
    (fun i _ => ?_)⟩
  · change freshUsers.refs p < 65536
    rw [freshUsers_refs]
    decide
  · have hle := hdup.allocs i
    have hlt : 1 < 2 ^ 21 := by decide
    omega

end Jos

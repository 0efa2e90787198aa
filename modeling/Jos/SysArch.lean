import Jos.Lib.Keeps
import Mathlib.Data.List.Basic
import Mathlib.Data.BitVec

/-!
# Semaphores and mailboxes of the network server, `net/lwip/jos/arch/sys_arch.c`

Both come from an array with a list of the free entries.  `sys_mbox_new` takes one
mailbox and two semaphores.  When it gets a mailbox but not both semaphores, it frees
what it has by `sys_mbox_free`, which frees `SYS_SEM_NULL` too, the entry in front of
`sems`.
-/

namespace Jos

namespace SysArch

open Programs

/-- `NSEM`. -/
def nsem : Int := 256

/-- `NMBOX`. -/
def nmbox : Int := 128

/-- `MBOXSLOTS`. -/
def mboxslots : Int := 32

/-- `SYS_SEM_NULL` and `SYS_MBOX_NULL`. -/
def sysSemNull : Int := -1

def sysMboxNull : Int := -1

/-- `struct sys_sem_entry`.  The counter and the flag make up the word `v`. -/
structure SysSemEntry where
  freed : Bool
  gen : BitVec 32
  counter : BitVec 16
  waiters : BitVec 16
deriving DecidableEq

/-- `struct sys_mbox_entry`. -/
structure SysMboxEntry where
  freed : Bool
  head : Int
  nextq : Int
  msg : Nat → BitVec 32
  queuedMsg : Int
  freeMsg : Int

/-- An entry of one of the arrays, or the memory around it. -/
inductive Entry where
  | sem (i : Int)
  | mbox (i : Int)
deriving DecidableEq

/-- The entry is in its array. -/
def Entry.InArray : Entry → Prop
  | sem i => 0 ≤ i ∧ i < nsem
  | mbox i => 0 ≤ i ∧ i < nmbox

/-- The variables of `sys_arch.c`, and the entries that have been looked at. -/
structure Pools where
  sems : Int → SysSemEntry
  semFree : List Int
  mboxes : Int → SysMboxEntry
  mboxFree : List Int
  touched : List Entry

/-! ## The functions -/

def touch (e : Entry) : Prog Pools Unit :=
  Prog.modify (fun s => { s with touched := e :: s.touched })

/-- `assert`. -/
def assert (c : Pools → Bool) : Prog Pools Unit := do
  let s ← Prog.get
  Prog.when (c s = false) Prog.stop

def setSem (i : Int) (f : SysSemEntry → SysSemEntry) : Prog Pools Unit :=
  Prog.modify (fun s => { s with sems := Function.update s.sems i (f (s.sems i)) })

def setMbox (i : Int) (f : SysMboxEntry → SysMboxEntry) : Prog Pools Unit :=
  Prog.modify (fun s => { s with mboxes := Function.update s.mboxes i (f (s.mboxes i)) })

/-- `sys_sem_new`. -/
def sysSemNew (count : BitVec 8) : Prog Pools Int := do
  let s ← Prog.get
  match s.semFree with
  | [] => pure sysSemNull
  | se :: rest => do
      touch (.sem se)
      -- LIST_REMOVE
      Prog.modify (fun s => { s with semFree := rest })
      assert (fun s => (s.sems se).freed)
      setSem se (fun e => { e with freed := false, counter := count.setWidth 16, gen := e.gen + 1 })
      pure se

/-- `sys_sem_free`. -/
def sysSemFree (sem : Int) : Prog Pools Unit := do
  touch (.sem sem)
  assert (fun s => !(s.sems sem).freed)
  setSem sem (fun e => { e with freed := true, gen := e.gen + 1 })
  -- LIST_INSERT_HEAD
  Prog.modify (fun s => { s with semFree := sem :: s.semFree })

/-- `sys_mbox_free`. -/
def sysMboxFree (mbox : Int) : Prog Pools Unit := do
  touch (.mbox mbox)
  assert (fun s => !(s.mboxes mbox).freed)
  let s ← Prog.get
  sysSemFree (s.mboxes mbox).queuedMsg
  let s ← Prog.get
  sysSemFree (s.mboxes mbox).freeMsg
  Prog.modify (fun s => { s with mboxFree := mbox :: s.mboxFree })
  setMbox mbox (fun e => { e with freed := true })

/-- `sys_mbox_new`. -/
def sysMboxNew (size : Int) : Prog Pools Int := do
  assert (fun _ => decide (size < mboxslots))
  let s ← Prog.get
  match s.mboxFree with
  | [] => pure sysMboxNull
  | mbe :: rest => do
      touch (.mbox mbe)
      Prog.modify (fun s => { s with mboxFree := rest })
      assert (fun s => (s.mboxes mbe).freed)
      setMbox mbe (fun e => { e with freed := false, head := -1, nextq := 0 })
      let queuedMsg ← sysSemNew 0#8
      setMbox mbe (fun e => { e with queuedMsg := queuedMsg })
      let freeMsg ← sysSemNew (BitVec.ofInt 8 mboxslots)
      setMbox mbe (fun e => { e with freeMsg := freeMsg })
      if queuedMsg = sysSemNull ∨ freeMsg = sysSemNull then do
        sysMboxFree mbe
        pure sysMboxNull
      else pure mbe

/-! ## The pools -/

/-- The free entries of the arrays are on the lists, each once. -/
structure PoolsOk (s : Pools) : Prop where
  sems : ∀ i, i ∈ s.semFree → 0 ≤ i ∧ i < nsem ∧ (s.sems i).freed = true
  semsOnce : s.semFree.Nodup
  semsUsed : ∀ i, 0 ≤ i → i < nsem → i ∉ s.semFree → (s.sems i).freed = false
  mboxes : ∀ i, i ∈ s.mboxFree → 0 ≤ i ∧ i < nmbox ∧ (s.mboxes i).freed = true
  mboxesOnce : s.mboxFree.Nodup
  mboxesUsed : ∀ i, 0 ≤ i → i < nmbox → i ∉ s.mboxFree → (s.mboxes i).freed = false

/-- The same entries are free. -/
structure SamePools (s s' : Pools) : Prop where
  sems : ∀ i, i ∈ s'.semFree ↔ i ∈ s.semFree
  semsFreed : ∀ i, 0 ≤ i → i < nsem → (s'.sems i).freed = (s.sems i).freed
  mboxes : ∀ i, i ∈ s'.mboxFree ↔ i ∈ s.mboxFree
  mboxesFreed : ∀ i, 0 ≤ i → i < nmbox → (s'.mboxes i).freed = (s.mboxes i).freed

/-- Nothing has been looked at yet. -/
def Pools.untouched (s : Pools) : Pools := { s with touched := [] }

/-- `sys_mbox_new` that fails changes nothing, and only entries of the arrays are looked
at. -/
def MboxNewSound (size : Int) (s : Pools) : Prop :=
  (∀ s', (sysMboxNew size).run s.untouched = .ret sysMboxNull s' → SamePools s s') ∧
    ∀ e, e ∈ ((sysMboxNew size).run s.untouched).state.touched → e.InArray

/-! ## What the functions do -/

section Runs

variable {s : Pools} {i j : Int} {rest : List Int} {count : BitVec 8}

theorem touch_run (e : Entry) (s : Pools) :
    (touch e).run s = .ret () { s with touched := e :: s.touched } := rfl

theorem setMbox_run (i : Int) (f : SysMboxEntry → SysMboxEntry) (s : Pools) :
    (setMbox i f).run s =
      .ret () { s with mboxes := Function.update s.mboxes i (f (s.mboxes i)) } := rfl

theorem assert_true {c : Pools → Bool} (h : c s = true) : (assert c).run s = .ret () s := by
  unfold assert Prog.when
  rw [Prog.run_bind_ret (Prog.run_get s), if_neg (by simp [h])]
  rfl

theorem assert_false {c : Pools → Bool} (h : c s = false) : (assert c).run s = .stop s := by
  unfold assert Prog.when
  rw [Prog.run_bind_ret (Prog.run_get s), if_pos h]
  rfl

/-- `sys_sem_new` has taken the first entry of the list. -/
def Pools.takeSem (s : Pools) (i : Int) (rest : List Int) (count : BitVec 8) : Pools :=
  { s with
    sems := Function.update s.sems i
      { s.sems i with
        freed := false
        counter := count.setWidth 16
        gen := (s.sems i).gen + 1 }
    semFree := rest
    touched := .sem i :: s.touched }

/-- `sys_sem_free` has given an entry back. -/
def Pools.giveSem (s : Pools) (i : Int) : Pools :=
  { s with
    sems := Function.update s.sems i
      { s.sems i with freed := true, gen := (s.sems i).gen + 1 }
    semFree := i :: s.semFree
    touched := .sem i :: s.touched }

/-- `sys_mbox_new` has taken the first mailbox of the list. -/
def Pools.takeMbox (s : Pools) (i : Int) (rest : List Int) : Pools :=
  { s with
    mboxes := Function.update s.mboxes i
      { s.mboxes i with freed := false, head := -1, nextq := 0 }
    mboxFree := rest
    touched := .mbox i :: s.touched }

theorem sysSemNew_none (h : s.semFree = []) : (sysSemNew count).run s = .ret sysSemNull s := by
  unfold sysSemNew
  rw [Prog.run_bind_ret (Prog.run_get s), h]
  rfl

theorem sysSemNew_some (h : s.semFree = i :: rest) (hfreed : (s.sems i).freed = true) :
    (sysSemNew count).run s = .ret i (s.takeSem i rest count) := by
  unfold sysSemNew
  rw [Prog.run_bind_ret (Prog.run_get s), h]
  dsimp only
  rw [Prog.run_bind_ret (touch_run _ s), Prog.run_bind_ret (Prog.run_modify _ _),
    Prog.run_bind_ret (assert_true hfreed)]
  rfl

theorem sysSemFree_used (hused : (s.sems i).freed = false) :
    (sysSemFree i).run s = .ret () (s.giveSem i) := by
  unfold sysSemFree
  rw [Prog.run_bind_ret (touch_run _ s), Prog.run_bind_ret (assert_true (by simp [hused]))]
  rfl

/-- The entry in front of `sems` has been looked at. -/
def Outside (s : Pools) : Prop := .sem sysSemNull ∈ s.touched

theorem outside_assert (c : Pools → Bool) : Ends Outside (assert c) :=
  Ends.get.bind (fun _ => Ends.stop.when)

theorem outside_touch (e : Entry) : Ends Outside (touch e) :=
  fun _ h => List.mem_cons_of_mem _ h

theorem outside_sysSemFree (i : Int) : Ends Outside (sysSemFree i) :=
  (outside_touch _).bind (fun _ => (outside_assert _).bind (fun _ =>
    (Ends.modify (fun _ h => h)).bind (fun _ => Ends.modify (fun _ h => h))))

/-- To free `SYS_SEM_NULL` is to look at it. -/
theorem sysSemFree_null (s : Pools) : Outside ((sysSemFree sysSemNull).run s).state := by
  have htouch : Outside ((touch (.sem sysSemNull)).run s).state := List.mem_cons_self
  exact Ends.behind htouch (fun _ => (outside_assert _).bind (fun _ =>
    (Ends.modify (fun _ h => h)).bind (fun _ => Ends.modify (fun _ h => h))))

/-- The second half of `sys_mbox_free`. -/
theorem outside_freeMsg (i : Int) : Ends Outside (do
    let s ← Prog.get
    sysSemFree (s.mboxes i).freeMsg
    Prog.modify (fun s => { s with mboxFree := i :: s.mboxFree })
    setMbox i (fun e => { e with freed := true })) :=
  Ends.get.bind (fun _ => (outside_sysSemFree _).bind (fun _ =>
    (Ends.modify (fun _ h => h)).bind (fun _ => Ends.modify (fun _ h => h))))

/-- A mailbox with one semaphore or none is freed. -/
theorem sysMboxFree_short (hused : (s.mboxes i).freed = false)
    (hsem : (s.mboxes i).queuedMsg = sysSemNull ∨
      ((s.mboxes i).freeMsg = sysSemNull ∧ (s.sems (s.mboxes i).queuedMsg).freed = false)) :
    Outside ((sysMboxFree i).run s).state := by
  unfold sysMboxFree
  rw [Prog.run_bind_ret (touch_run _ s), Prog.run_bind_ret (assert_true (by simp [hused])),
    Prog.run_bind_ret (Prog.run_get _)]
  dsimp only
  rcases hsem with hnull | ⟨hnull, hsem⟩
  · -- there is not even the first semaphore
    rw [hnull]
    exact Ends.behind (sysSemFree_null _) (fun _ => outside_freeMsg i)
  · have hrun : (sysSemFree (s.mboxes i).queuedMsg).run
        { s with touched := .mbox i :: s.touched } = .ret () _ := sysSemFree_used hsem
    rw [Prog.run_bind_ret hrun, Prog.run_bind_ret (Prog.run_get _)]
    have hlast : ∀ t : Pools, (t.mboxes i).freeMsg = sysSemNull →
        Outside ((sysSemFree (t.mboxes i).freeMsg).run t).state := by
      intro t ht
      rw [ht]
      exact sysSemFree_null t
    exact Ends.behind (hlast _ hnull) (fun _ =>
      (Ends.modify (fun _ h => h)).bind (fun _ => Ends.modify (fun _ h => h)))

/-- The end of `sys_mbox_new`, when it has asked for the semaphores. -/
def mboxNewEnd (i queuedMsg freeMsg : Int) : Prog Pools Int := do
  setMbox i (fun e => { e with freeMsg := freeMsg })
  if queuedMsg = sysSemNull ∨ freeMsg = sysSemNull then do
    sysMboxFree i
    pure sysMboxNull
  else pure i

/-- `sys_mbox_new` with a mailbox. -/
theorem sysMboxNew_some {size : Int} (hsize : size < mboxslots) (h : s.mboxFree = i :: rest)
    (hfreed : (s.mboxes i).freed = true) :
    (sysMboxNew size).run s = (do
      let queuedMsg ← sysSemNew 0#8
      setMbox i (fun e => { e with queuedMsg := queuedMsg })
      let freeMsg ← sysSemNew (BitVec.ofInt 8 mboxslots)
      mboxNewEnd i queuedMsg freeMsg).run (s.takeMbox i rest) := by
  unfold sysMboxNew
  rw [Prog.run_bind_ret (assert_true (by simp [hsize])), Prog.run_bind_ret (Prog.run_get s), h]
  dsimp only
  rw [Prog.run_bind_ret (touch_run _ s), Prog.run_bind_ret (Prog.run_modify _ _),
    Prog.run_bind_ret (assert_true hfreed), Prog.run_bind_ret (setMbox_run _ _ _)]
  rfl

/-- Without both semaphores, the entry in front of `sems` is looked at. -/
theorem mboxNewEnd_short {queuedMsg freeMsg : Int} (hused : (s.mboxes i).freed = false)
    (hqueued : (s.mboxes i).queuedMsg = queuedMsg)
    (hsem : queuedMsg = sysSemNull ∨
      (freeMsg = sysSemNull ∧ (s.sems queuedMsg).freed = false)) :
    Outside ((mboxNewEnd i queuedMsg freeMsg).run s).state := by
  have hnull : queuedMsg = sysSemNull ∨ freeMsg = sysSemNull := hsem.imp id And.left
  unfold mboxNewEnd
  rw [Prog.run_bind_ret (setMbox_run _ _ s), if_pos hnull]
  refine Ends.behind (sysMboxFree_short ?_ ?_) (fun _ => Ends.pure _)
  · simp [hused]
  · simp only [Function.update_self, hqueued]
    exact hsem

/-- An empty mailbox with two semaphores of its own. -/
structure NewMbox (s : Pools) (i q f : Int) : Prop where
  mailbox : (s.mboxes i).freed = false ∧ (s.mboxes i).head = -1 ∧ (s.mboxes i).nextq = 0
  sems : (s.mboxes i).queuedMsg = q ∧ (s.mboxes i).freeMsg = f
  apart : q ≠ f
  queued : (s.sems q).freed = false ∧ (s.sems q).counter = 0
  free : (s.sems f).freed = false ∧ (s.sems f).counter = 32

/-- A mailbox that `sys_mbox_new` returns has two semaphores. -/
theorem sysMboxNew_ok {size : Int} (hs : PoolsOk s) (hsize : size < mboxslots)
    (hmbox : s.mboxFree = i :: rest) {q f : Int} {sems : List Int}
    (hsems : s.semFree = q :: f :: sems) :
    ∃ s', (sysMboxNew size).run s = .ret i s' ∧
      s'.touched = .sem f :: .sem q :: .mbox i :: s.touched ∧ NewMbox s' i q f := by
  obtain ⟨-, -, hfreed⟩ := hs.mboxes i (by rw [hmbox]; exact List.mem_cons_self)
  obtain ⟨hq, -, hqfreed⟩ := hs.sems q (by rw [hsems]; exact List.mem_cons_self)
  obtain ⟨hf, -, hffreed⟩ := hs.sems f (by simp [hsems])
  have hne : f ≠ q := by
    have honce := hs.semsOnce
    rw [hsems] at honce
    exact fun hh => (List.nodup_cons.mp honce).1 (by simp [hh])
  have hboth : ¬ (q = sysSemNull ∨ f = sysSemNull) := by
    unfold sysSemNull
    omega
  rw [sysMboxNew_some hsize hmbox hfreed]
  have hfirst : (sysSemNew 0#8).run (s.takeMbox i rest) = .ret q _ :=
    sysSemNew_some hsems hqfreed
  rw [Prog.run_bind_ret hfirst, Prog.run_bind_ret (setMbox_run _ _ _)]
  have hsecond : ∀ t : Pools, t.semFree = f :: sems → (t.sems f).freed = true →
      (sysSemNew (BitVec.ofInt 8 mboxslots)).run t = .ret f _ :=
    fun t ht hfr => sysSemNew_some ht hfr
  rw [Prog.run_bind_ret (hsecond _ rfl (by simp [Pools.takeSem, Pools.takeMbox, hne, hffreed]))]
  unfold mboxNewEnd
  rw [Prog.run_bind_ret (setMbox_run _ _ _), if_neg hboth]
  refine ⟨_, rfl, rfl, ⟨?_, ?_, hne.symm, ?_, ?_⟩⟩
  · simp [Pools.takeSem, Pools.takeMbox]
  · simp [Pools.takeSem, Pools.takeMbox]
  · simp [Pools.takeSem, Pools.takeMbox, hne.symm]
  · simp only [Pools.takeSem, Pools.takeMbox, Function.update_self]
    exact ⟨trivial, rfl⟩

/-- With a mailbox and fewer than two semaphores, `sys_mbox_new` looks at the entry in front of
`sems`. -/
theorem sysMboxNew_short {size : Int} (hs : PoolsOk s) (hsize : size < mboxslots)
    (hmbox : s.mboxFree = i :: rest) (hsems : s.semFree.length < 2) :
    Outside ((sysMboxNew size).run s).state := by
  obtain ⟨-, -, hfreed⟩ := hs.mboxes i (by rw [hmbox]; exact List.mem_cons_self)
  rw [sysMboxNew_some hsize hmbox hfreed]
  have hused : ((s.takeMbox i rest).mboxes i).freed = false := by simp [Pools.takeMbox]
  match hfree : s.semFree with
  | [] =>
      have hfirst : (sysSemNew 0#8).run (s.takeMbox i rest) = .ret sysSemNull _ :=
        sysSemNew_none hfree
      rw [Prog.run_bind_ret hfirst, Prog.run_bind_ret (setMbox_run _ _ _),
        Prog.run_bind_ret (sysSemNew_none (s := { s.takeMbox i rest with mboxes := _ }) hfree)]
      exact mboxNewEnd_short (by simp [hused]) (by simp) (Or.inl rfl)
  | [q] =>
      obtain ⟨-, -, hqfreed⟩ := hs.sems q (by simp [hfree])
      have hfirst : (sysSemNew 0#8).run (s.takeMbox i rest) = .ret q _ :=
        sysSemNew_some hfree hqfreed
      rw [Prog.run_bind_ret hfirst, Prog.run_bind_ret (setMbox_run _ _ _),
        Prog.run_bind_ret (sysSemNew_none rfl)]
      exact mboxNewEnd_short (by simp [hused, Pools.takeSem]) (by simp)
        (Or.inr ⟨rfl, by simp [Pools.takeSem]⟩)
  | _ :: _ :: _ =>
      simp only [hfree, List.length_cons] at hsems
      omega

/-- Exactly when there is a mailbox but not two semaphores, `sys_mbox_new` looks at the entry
in front of `sems`. -/
theorem mbox_new_sound_iff (size : Int) (hs : PoolsOk s) :
    MboxNewSound size s ↔
      (mboxslots ≤ size ∨ s.mboxFree = [] ∨ 2 ≤ s.semFree.length) := by
  have hs' : PoolsOk s.untouched := ⟨hs.1, hs.2, hs.3, hs.4, hs.5, hs.6⟩
  by_cases hsize : size < mboxslots
  · cases hmbox : s.mboxFree with
    | nil =>
        have hrun : (sysMboxNew size).run s.untouched = .ret sysMboxNull s.untouched := by
          unfold sysMboxNew
          rw [Prog.run_bind_ret (assert_true (by simp [hsize])), Prog.run_bind_ret (Prog.run_get _),
            show s.untouched.mboxFree = [] from hmbox]
          rfl
        refine iff_of_true ⟨fun t ht => ?_, fun e he => ?_⟩ (Or.inr (Or.inl rfl))
        · rw [hrun] at ht
          cases ht
          exact ⟨fun _ => Iff.rfl, fun _ _ _ => rfl, fun _ => Iff.rfl, fun _ _ _ => rfl⟩
        · rw [hrun] at he
          exact absurd he List.not_mem_nil
    | cons i rest =>
        have hi := hs.mboxes i (by rw [hmbox]; exact List.mem_cons_self)
        by_cases htwo : 2 ≤ s.semFree.length
        · refine iff_of_true ?_ (Or.inr (Or.inr htwo))
          match hfree : s.semFree with
          | [] | [_] => simp [hfree] at htwo
          | q :: f :: sems =>
              obtain ⟨t, hrun, htouched, -⟩ := sysMboxNew_ok hs' hsize hmbox hfree
              refine ⟨fun t' ht' => ?_, fun e he => ?_⟩
              · -- the mailbox is not null
                rw [hrun] at ht'
                have hnull : i = sysMboxNull := (Outcome.ret.inj ht').1
                rw [hnull] at hi
                exact absurd hi.1 (by decide)
              · rw [hrun] at he
                have hq := hs.sems q (by simp [hfree])
                have hf := hs.sems f (by simp [hfree])
                have hmem : e ∈ t.touched := he
                rw [htouched] at hmem
                rcases List.mem_cons.mp hmem with rfl | hmem
                · exact ⟨hf.1, hf.2.1⟩
                · rcases List.mem_cons.mp hmem with rfl | hmem
                  · exact ⟨hq.1, hq.2.1⟩
                  · rcases List.mem_cons.mp hmem with rfl | hmem
                    · exact ⟨hi.1, hi.2.1⟩
                    · exact absurd hmem List.not_mem_nil
        · refine iff_of_false (fun hsound => ?_) ?_
          · have hout := sysMboxNew_short hs' hsize hmbox (Nat.lt_of_not_le htwo)
            exact absurd (hsound.2 _ hout).1 (by decide)
          · rintro (hge | hnil | hlen)
            · omega
            · cases hnil
            · exact htwo hlen
  · have hrun : (sysMboxNew size).run s.untouched = .stop s.untouched := by
      unfold sysMboxNew
      rw [Prog.run_bind, assert_false (by simp [hsize])]
    refine iff_of_true ⟨fun t ht => ?_, fun e he => ?_⟩ (Or.inl (by omega))
    · rw [hrun] at ht
      cases ht
    · rw [hrun] at he
      exact absurd he List.not_mem_nil

end Runs

/-! ## A pool that has run out -/

/-- All semaphores and mailboxes but those given are in use. -/
def busyPools (sems mboxes : List Int) : Pools where
  sems i := ⟨decide (i ∈ sems), 0, 0, 0⟩
  semFree := sems
  mboxes i := ⟨decide (i ∈ mboxes), -1, 0, fun _ => 0, 0, 0⟩
  mboxFree := mboxes
  touched := []

theorem busyPools_ok {sems mboxes : List Int} (hsems : ∀ i, i ∈ sems → 0 ≤ i ∧ i < nsem)
    (honce : sems.Nodup) (hmboxes : ∀ i, i ∈ mboxes → 0 ≤ i ∧ i < nmbox)
    (hmonce : mboxes.Nodup) : PoolsOk (busyPools sems mboxes) where
  sems i hi := ⟨(hsems i hi).1, (hsems i hi).2, by simpa [busyPools] using hi⟩
  semsOnce := honce
  semsUsed i _ _ hi := by simpa [busyPools] using hi
  mboxes i hi := ⟨(hmboxes i hi).1, (hmboxes i hi).2, by simpa [busyPools] using hi⟩
  mboxesOnce := hmonce
  mboxesUsed i _ _ hi := by simpa [busyPools] using hi

theorem mbox_new_sound_iff_two : MboxNewSound 30 (busyPools [3, 7] [5]) ↔
    (mboxslots ≤ 30 ∨ (busyPools [3, 7] [5]).mboxFree = [] ∨
      2 ≤ (busyPools [3, 7] [5]).semFree.length) :=
  mbox_new_sound_iff 30 (busyPools_ok (by decide) (by decide) (by decide) (by decide))

/-- With one semaphore left, a mailbox is not had, and the semaphore in front of the array is
freed. -/
theorem mbox_new_not_sound : ¬ ∀ (size : Int) (s : Pools), PoolsOk s → MboxNewSound size s := by
  intro h
  have hok : PoolsOk (busyPools [3] [5]) :=
    busyPools_ok (by decide) (by decide) (by decide) (by decide)
  have hout : Outside ((sysMboxNew 30).run (busyPools [3] [5]).untouched).state :=
    sysMboxNew_short hok (by decide) rfl (by decide)
  exact absurd ((h 30 _ hok).2 _ hout).1 (by decide)

end SysArch

end Jos

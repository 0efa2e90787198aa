import Jos.Lib.Bytes
import Jos.PipeSpaces

/-!
# Making a pipe, `pipe` of `lib/pipe.c` and `fd_alloc` of `lib/fd.c`

`pipe` takes two descriptors and a page for the data, which it maps for both.  Each of its
calls may fail; what was mapped before is then unmapped again, the last first.
-/

namespace Jos

namespace PipeCreation

open Programs

/-- The calling environment: what it maps, what pages hold, the pages that the kernel gives
next, and what it answers to the next calls that may fail. -/
structure Opener where
  space : Space
  bytes : Nat → Bytes.Memory
  supply : Nat → Nat
  answers : Nat → Int

/-- `PTE_P|PTE_W|PTE_U|PTE_SHARE`. -/
def pipePerm : U32 := 0x407#32

/-- `devpipe.dev_id`. -/
def devpipe : U32 := 0x70#32

/-- `O_RDONLY`. -/
def oRdonly : U32 := 0#32

/-- `O_WRONLY`. -/
def oWronly : U32 := 1#32

/-- `E_MAX_OPEN` and `E_INVAL`. -/
def eMaxOpen : Int := 10

def eInval : Int := 3

/-- The place of `fd_dev_id` in a descriptor. -/
def fdDevId : Nat := 0

/-- The place of `fd_omode`. -/
def fdOmode : Nat := 8

/-! ## The calls -/

def Opener.asked (s : Opener) : Opener := { s with answers := fun k => s.answers (k + 1) }

/-- What the kernel answers. -/
def answer : Prog Opener Int := do
  let s ← Prog.get
  Prog.modify Opener.asked
  pure (s.answers 0)

/-- A page that is cleared is mapped. -/
def Opener.alloc (v : Nat) (perm : U32) (s : Opener) : Opener :=
  { s with
    space := s.space.set v (some ⟨s.supply 0, perm⟩)
    bytes := Function.update s.bytes (s.supply 0) (fun _ => 0#8)
    supply := fun k => s.supply (k + 1) }

/-- `sys_page_alloc`, at page number `v`. -/
def sysPageAlloc (v : Nat) (perm : U32) : Prog Opener Int := do
  let r ← answer
  if r < 0 then pure r
  else do
    Prog.modify (Opener.alloc v perm)
    pure 0

def Opener.map (v : Nat) (w : UserPte) (s : Opener) : Opener :=
  { s with space := s.space.set v (some w) }

def Opener.unmap (v : Nat) (s : Opener) : Opener :=
  { s with space := s.space.set v none }

/-- `sys_page_map`, from page number `src` to page number `dst`. -/
def sysPageMap (src dst : Nat) (perm : U32) : Prog Opener Int := do
  let r ← answer
  if r < 0 then pure r
  else do
    let s ← Prog.get
    match s.space src with
    | none => pure (-eInval)
    | some w =>
        if ¬ HasFlag w.perm pteW ∧ HasFlag perm pteW then pure (-eInval)
        else do
          Prog.modify (Opener.map dst ⟨w.page, perm⟩)
          pure 0

/-- `sys_page_unmap`. -/
def sysPageUnmap (v : Nat) : Prog Opener Unit :=
  Prog.modify (Opener.unmap v)

def Opener.setWord (p a : Nat) (w : U32) (s : Opener) : Opener :=
  { s with bytes := Function.update s.bytes p (Bytes.setWord (s.bytes p) a w) }

/-- A word of the page at page number `v` is stored. -/
def store (v a : Nat) (w : U32) : Prog Opener Unit := do
  let s ← Prog.get
  match s.space v with
  | none => Prog.stop
  | some e => Prog.modify (Opener.setWord e.page a w)

/-- The descriptor that `fd_alloc` finds. -/
def freeFd (m : Space) : Option Nat := (List.range maxFd).find? (fun i => m (fdPage i) = none)

/-- `fd_alloc`; nothing when it returns `-E_MAX_OPEN`. -/
def fdAlloc : Prog Opener (Option Nat) := do
  let s ← Prog.get
  pure (freeFd s.space)

/-- What `pipe` returns, and what it stores in `pfd`. -/
structure Returned where
  r : Int
  pfd : Option (Nat × Nat)

/-- `err1`. -/
def err1 (fd0 : Nat) (r : Int) : Prog Opener Returned := do
  sysPageUnmap (fdPage fd0)
  pure ⟨r, none⟩

/-- `err2`. -/
def err2 (fd0 fd1 : Nat) (r : Int) : Prog Opener Returned := do
  sysPageUnmap (fdPage fd1)
  err1 fd0 r

/-- `err3`. -/
def err3 (fd0 fd1 : Nat) (r : Int) : Prog Opener Returned := do
  sysPageUnmap (dataPage fd0)
  err2 fd0 fd1 r

/-- The descriptors of `pipe` are set up. -/
def setUp (fd0 fd1 : Nat) : Prog Opener Returned := do
  store (fdPage fd0) fdDevId devpipe
  store (fdPage fd0) fdOmode oRdonly
  store (fdPage fd1) fdDevId devpipe
  store (fdPage fd1) fdOmode oWronly
  pure ⟨0, some (fd0, fd1)⟩

/-- `pipe`, when it has both descriptors. -/
def shareData (fd0 fd1 : Nat) : Prog Opener Returned := do
  let r ← sysPageAlloc (dataPage fd0) pipePerm
  if r < 0 then err2 fd0 fd1 r
  else do
    let r ← sysPageMap (dataPage fd0) (dataPage fd1) pipePerm
    if r < 0 then err3 fd0 fd1 r else setUp fd0 fd1

/-- `pipe`, when it has the first descriptor. -/
def second (fd0 : Nat) : Prog Opener Returned := do
  let found ← fdAlloc
  match found with
  | none => err1 fd0 (-eMaxOpen)
  | some fd1 => do
      let r ← sysPageAlloc (fdPage fd1) pipePerm
      if r < 0 then err1 fd0 r else shareData fd0 fd1

/-- `pipe`. -/
def pipe : Prog Opener Returned := do
  let found ← fdAlloc
  match found with
  | none => pure ⟨-eMaxOpen, none⟩
  | some fd0 => do
      let r ← sysPageAlloc (fdPage fd0) pipePerm
      if r < 0 then pure ⟨r, none⟩ else second fd0

/-! ## What `pipe` is for -/

/-- The pages that the kernel gives are different, and are not mapped yet. -/
structure Supplied (s : Opener) : Prop where
  apart : Function.Injective s.supply
  unmapped : ∀ v w k, s.space v = some w → w.page ≠ s.supply k

/-- Only open descriptors have data pages. -/
def TableOk (s : Opener) : Prop :=
  ∀ i : Nat, i < maxFd → s.space (dataPage i) ≠ none → s.space (fdPage i) ≠ none

/-- No page that was mapped has changed. -/
def Kept (s t : Opener) : Prop := ∀ v w, s.space v = some w → t.bytes w.page = s.bytes w.page

/-- Everything is mapped as before, and holds what it held. -/
structure Restored (s t : Opener) : Prop where
  space : t.space = s.space
  kept : Kept s t

/-- A descriptor of the pipe, at page number `v`. -/
def IsEnd (t : Opener) (v : Nat) (omode : U32) : Prop :=
  ∃ w, t.space v = some w ∧ w.perm = pipePerm ∧
    Bytes.word (t.bytes w.page) fdDevId = devpipe ∧ Bytes.word (t.bytes w.page) fdOmode = omode

/-- There is a pipe at the descriptors `i` and `j`. -/
structure Connected (s t : Opener) (i j : Nat) : Prop where
  lt : i < j ∧ j < maxFd
  free : s.space (fdPage i) = none ∧ s.space (fdPage j) = none
  lowest : ∀ k : Nat, k < j → k ≠ i → s.space (fdPage k) ≠ none
  reads : IsEnd t (fdPage i) oRdonly
  writes : IsEnd t (fdPage j) oWronly
  shared : ∃ p, t.space (dataPage i) = some ⟨p, pipePerm⟩ ∧
    t.space (dataPage j) = some ⟨p, pipePerm⟩ ∧ ∀ a, t.bytes p a = 0#8
  others : ∀ k : Nat, k < maxFd → k ≠ i → k ≠ j →
    t.space (fdPage k) = s.space (fdPage k) ∧ t.space (dataPage k) = s.space (dataPage k)
  kept : Kept s t

/-- What `pipe` leaves. -/
def Settled (s : Opener) (res : Returned) (t : Opener) : Prop :=
  (res.r < 0 ∧ Restored s t) ∨ (res.r = 0 ∧ ∃ i j, res.pfd = some (i, j) ∧ Connected s t i j)

/-! ## What was mapped is unmapped -/

/-- Pages were mapped at the page numbers `vs`, which were free. -/
structure Since (s : Opener) (vs : List Nat) (t : Opener) : Prop where
  free : ∀ v, v ∈ vs → s.space v = none
  space : ∀ v, v ∉ vs → t.space v = s.space v
  kept : Kept s t
  supplied : Supplied t

variable {s t : Opener} {vs : List Nat} {v a : Nat} {w : U32} {perm : U32} {i j : Nat} {r : Int}

theorem Since.refl (h : Supplied s) : Since s [] s where
  free := fun _ hv => absurd hv List.not_mem_nil
  space := fun _ _ => rfl
  kept := fun _ _ _ => rfl
  supplied := h

theorem Since.restored (h : Since s [] t) : Restored s t where
  space := funext (fun v => h.space v List.not_mem_nil)
  kept := h.kept

/-- A page that was mapped at the beginning is still there. -/
theorem Since.was (h : Since s vs t) {e : UserPte} (he : s.space v = some e) :
    t.space v = some e := by
  have hv : v ∉ vs := fun hv => by
    rw [h.free v hv] at he
    cases he
  rw [h.space v hv, he]

theorem Since.asked (h : Since s vs t) : Since s vs t.asked where
  free := h.free
  space := h.space
  kept := h.kept
  supplied := ⟨h.supplied.apart, h.supplied.unmapped⟩

theorem Since.unmap (h : Since s (v :: vs) t) : Since s vs (t.unmap v) where
  free := fun v' hv' => h.free v' (List.mem_cons_of_mem v hv')
  space := fun v' hv' => by
    show t.space.set v none v' = s.space v'
    by_cases heq : v' = v
    · subst heq
      rw [Space.set_self, h.free v' List.mem_cons_self]
    · rw [Space.set_of_ne heq]
      exact h.space v' (fun hmem => (List.mem_cons.mp hmem).elim heq hv')
  kept := h.kept
  supplied := {
    apart := h.supplied.apart
    unmapped := fun v' e k he => by
      have he' : t.space.set v none v' = some e := he
      by_cases heq : v' = v
      · subst heq
        rw [Space.set_self] at he'
        cases he'
      · rw [Space.set_of_ne heq] at he'
        exact h.supplied.unmapped v' e k he' }

theorem Since.alloc (h : Since s vs t) (hv : s.space v = none) :
    Since s (v :: vs) (t.alloc v perm) where
  free := fun v' hv' => by
    rcases List.mem_cons.mp hv' with rfl | hmem
    · exact hv
    · exact h.free v' hmem
  space := fun v' hv' => by
    obtain ⟨hne, hmem⟩ := List.ne_and_not_mem_of_not_mem_cons hv'
    show t.space.set v _ v' = s.space v'
    rw [Space.set_of_ne hne]
    exact h.space v' hmem
  kept := fun v' e he => by
    have hne : e.page ≠ t.supply 0 := h.supplied.unmapped v' e 0 (h.was he)
    show Function.update t.bytes (t.supply 0) _ e.page = s.bytes e.page
    rw [Function.update_of_ne hne]
    exact h.kept v' e he
  supplied := {
    apart := fun k k' hk => Nat.succ_injective (h.supplied.apart hk)
    unmapped := fun v' e k he => by
      have he' : t.space.set v (some ⟨t.supply 0, perm⟩) v' = some e := he
      show e.page ≠ t.supply (k + 1)
      by_cases heq : v' = v
      · subst heq
        rw [Space.set_self] at he'
        cases he'
        exact fun hk => Nat.succ_ne_zero k (h.supplied.apart hk).symm
      · rw [Space.set_of_ne heq] at he'
        exact h.supplied.unmapped v' e (k + 1) he' }

theorem Since.map (h : Since s vs t) (hv : s.space v = none) {v' : Nat} {e : UserPte}
    (he : t.space v' = some e) : Since s (v :: vs) (t.map v ⟨e.page, perm⟩) where
  free := fun x hx => by
    rcases List.mem_cons.mp hx with rfl | hmem
    · exact hv
    · exact h.free x hmem
  space := fun x hx => by
    obtain ⟨hne, hmem⟩ := List.ne_and_not_mem_of_not_mem_cons hx
    show t.space.set v _ x = s.space x
    rw [Space.set_of_ne hne]
    exact h.space x hmem
  kept := h.kept
  supplied := {
    apart := h.supplied.apart
    unmapped := fun x e' k he' => by
      have hx : t.space.set v (some ⟨e.page, perm⟩) x = some e' := he'
      by_cases heq : x = v
      · subst heq
        rw [Space.set_self] at hx
        cases hx
        exact h.supplied.unmapped v' e k he
      · rw [Space.set_of_ne heq] at hx
        exact h.supplied.unmapped x e' k hx }

/-! ## The calls, one by one -/

theorem freeFd_some {m : Space} (h : freeFd m = some i) :
    m (fdPage i) = none ∧ i < maxFd ∧ ∀ k : Nat, k < i → m (fdPage k) ≠ none := by
  obtain ⟨hfree, hi, hbelow⟩ := List.find?_range_eq_some.mp h
  refine ⟨of_decide_eq_true hfree, List.mem_range.mp hi, fun k hk hnone => ?_⟩
  have hbusy := hbelow k hk
  rw [decide_eq_true hnone] at hbusy
  cases hbusy

theorem sysPageAlloc_spec {Q : Int → Opener → Prop}
    (hno : t.answers 0 < 0 → Q (t.answers 0) t.asked)
    (hyes : Q 0 (t.asked.alloc v perm)) : Returns (sysPageAlloc v perm) Q t := by
  unfold sysPageAlloc answer Returns
  simp only [wp_bind, wp_get, wp_modify, wp_pure]
  exact wp_ite hno (fun _ => hyes)

theorem sysPageMap_spec {Q : Int → Opener → Prop} {src dst : Nat} {e : UserPte}
    (he : t.space src = some e) (hperm : HasFlag perm pteW → HasFlag e.perm pteW)
    (hno : t.answers 0 < 0 → Q (t.answers 0) t.asked)
    (hyes : Q 0 (t.asked.map dst ⟨e.page, perm⟩)) :
    Returns (sysPageMap src dst perm) Q t := by
  have hsrc : t.asked.space src = some e := he
  unfold sysPageMap answer Returns
  simp only [wp_bind, wp_get, wp_modify, wp_pure]
  refine wp_ite hno (fun _ => ?_)
  simp only [wp_bind, wp_get, hsrc]
  exact wp_ite (fun h => absurd (hperm h.2) h.1) (fun _ => hyes)

theorem store_run {e : UserPte} (he : t.space v = some e) :
    (store v a w).run t = .ret () (t.setWord e.page a w) := by
  unfold store
  rw [Prog.run_bind_ret (Prog.run_get t)]
  simp only [he]
  rfl

theorem err1_spec (h : Since s [fdPage i] t) (hr : r < 0) :
    Returns (err1 i r) (Settled s) t :=
  Or.inl ⟨hr, h.unmap.restored⟩

theorem err2_spec (h : Since s [fdPage j, fdPage i] t) (hr : r < 0) :
    Returns (err2 i j r) (Settled s) t :=
  err1_spec h.unmap hr

theorem err3_spec (h : Since s [dataPage i, fdPage j, fdPage i] t) (hr : r < 0) :
    Returns (err3 i j r) (Settled s) t :=
  err2_spec h.unmap hr

/-! ## The descriptors are set up -/

@[simp] theorem setWord_bytes_self {p : Nat} :
    (t.setWord p a w).bytes p = Bytes.setWord (t.bytes p) a w :=
  Function.update_self p _ t.bytes

theorem setWord_bytes_of_ne {p q : Nat} (h : q ≠ p) : (t.setWord p a w).bytes q = t.bytes q :=
  Function.update_of_ne h _ t.bytes

/-- What `pipe` stores in a descriptor. -/
def Opener.describe (p : Nat) (omode : U32) (t : Opener) : Opener :=
  (t.setWord p fdDevId devpipe).setWord p fdOmode omode

theorem describe_devId {p : Nat} {omode : U32} :
    Bytes.word ((t.describe p omode).bytes p) fdDevId = devpipe := by
  unfold Opener.describe
  rw [setWord_bytes_self, setWord_bytes_self, Bytes.word_setWord_of_apart (by decide),
    Bytes.word_setWord_self]

theorem describe_omode {p : Nat} {omode : U32} :
    Bytes.word ((t.describe p omode).bytes p) fdOmode = omode := by
  unfold Opener.describe
  rw [setWord_bytes_self, setWord_bytes_self, Bytes.word_setWord_self]

theorem describe_of_ne {p q : Nat} {omode : U32} (h : q ≠ p) :
    (t.describe p omode).bytes q = t.bytes q := by
  unfold Opener.describe
  rw [setWord_bytes_of_ne h, setWord_bytes_of_ne h]

theorem setUp_run {e e' : UserPte} (hi : t.space (fdPage i) = some e)
    (hj : t.space (fdPage j) = some e') :
    (setUp i j).run t =
      .ret ⟨0, some (i, j)⟩ ((t.describe e.page oRdonly).describe e'.page oWronly) := by
  have hi1 : (t.setWord e.page fdDevId devpipe).space (fdPage i) = some e := hi
  have hj1 : (t.describe e.page oRdonly).space (fdPage j) = some e' := hj
  have hj2 : ((t.describe e.page oRdonly).setWord e'.page fdDevId devpipe).space (fdPage j) =
      some e' := hj
  unfold setUp
  rw [Prog.run_bind_ret (store_run hi), Prog.run_bind_ret (store_run hi1)]
  change (store (fdPage j) fdDevId devpipe >>= fun _ => _).run (t.describe e.page oRdonly) = _
  rw [Prog.run_bind_ret (store_run hj1), Prog.run_bind_ret (store_run hj2)]
  rfl

/-- The two descriptors that `fd_alloc` finds are the two lowest that are free. -/
structure Chosen (s : Opener) (i j : Nat) : Prop where
  lt : i < j ∧ j < maxFd
  free : s.space (fdPage i) = none ∧ s.space (fdPage j) = none
  lowest : ∀ k : Nat, k < j → k ≠ i → s.space (fdPage k) ≠ none

/-- Everything is mapped, and nothing is stored yet. -/
structure Mapped (s : Opener) (i j p0 p1 p : Nat) (t : Opener) : Prop where
  since : Since s [dataPage j, dataPage i, fdPage j, fdPage i] t
  fd0 : t.space (fdPage i) = some ⟨p0, pipePerm⟩
  fd1 : t.space (fdPage j) = some ⟨p1, pipePerm⟩
  data0 : t.space (dataPage i) = some ⟨p, pipePerm⟩
  data1 : t.space (dataPage j) = some ⟨p, pipePerm⟩
  apart : p0 ≠ p1 ∧ p ≠ p0 ∧ p ≠ p1
  unused : ∀ v e, s.space v = some e → e.page ≠ p0 ∧ e.page ≠ p1
  zero : ∀ a, t.bytes p a = 0#8

theorem Mapped.connected {p0 p1 p : Nat} (h : Mapped s i j p0 p1 p t) (hc : Chosen s i j) :
    Connected s ((t.describe p0 oRdonly).describe p1 oWronly) i j where
  lt := hc.lt
  free := hc.free
  lowest := hc.lowest
  reads := by
    refine ⟨_, h.fd0, rfl, ?_, ?_⟩
    · rw [describe_of_ne h.apart.1]
      exact describe_devId
    · rw [describe_of_ne h.apart.1]
      exact describe_omode
  writes := ⟨_, h.fd1, rfl, describe_devId, describe_omode⟩
  shared := by
    refine ⟨p, h.data0, h.data1, fun a => ?_⟩
    rw [describe_of_ne h.apart.2.2, describe_of_ne h.apart.2.1]
    exact h.zero a
  others := fun k hk hki hkj => by
    have hj : j < 32 := hc.lt.2
    have hi : i < 32 := hc.lt.1.trans hj
    constructor
    · apply h.since.space
      simp only [List.mem_cons, List.not_mem_nil, or_false, not_or]
      exact ⟨Pipe.fdPage_ne_dataPage hk hj, Pipe.fdPage_ne_dataPage hk hi,
        Pipe.fdPage_ne hj hk hkj, Pipe.fdPage_ne hi hk hki⟩
    · apply h.since.space
      simp only [List.mem_cons, List.not_mem_nil, or_false, not_or]
      exact ⟨Pipe.dataPage_ne hj hk hkj, Pipe.dataPage_ne hi hk hki,
        (Pipe.fdPage_ne_dataPage hj hk).symm, (Pipe.fdPage_ne_dataPage hi hk).symm⟩
  kept := fun v e he => by
    obtain ⟨h0, h1⟩ := h.unused v e he
    rw [describe_of_ne h1, describe_of_ne h0]
    exact h.since.kept v e he

theorem setUp_spec {p0 p1 p : Nat} (h : Mapped s i j p0 p1 p t) (hc : Chosen s i j) :
    Returns (setUp i j) (Settled s) t := by
  unfold Returns wp
  rw [setUp_run h.fd0 h.fd1]
  exact Or.inr ⟨rfl, i, j, rfl, h.connected hc⟩

/-! ## `pipe` -/

/-- Both descriptors have a page. -/
structure Opened (s : Opener) (i j p0 p1 : Nat) (t : Opener) : Prop where
  since : Since s [fdPage j, fdPage i] t
  fd0 : t.space (fdPage i) = some ⟨p0, pipePerm⟩
  fd1 : t.space (fdPage j) = some ⟨p1, pipePerm⟩
  apart : p0 ≠ p1
  unused : ∀ v e, s.space v = some e → e.page ≠ p0 ∧ e.page ≠ p1

theorem shareData_spec {p0 p1 : Nat} (h : Opened s i j p0 p1 t) (hc : Chosen s i j)
    (hs : TableOk s) : Returns (shareData i j) (Settled s) t := by
  have hj : j < 32 := hc.lt.2
  have hi : i < 32 := hc.lt.1.trans hj
  have hdata : ∀ k : Nat, k < maxFd → s.space (fdPage k) = none →
      s.space (dataPage k) = none := fun k hk hnone =>
    not_not.mp (fun hne => hs k hk hne hnone)
  have hdi : s.space (dataPage i) = none := hdata i hi hc.free.1
  have hdj : s.space (dataPage j) = none := hdata j hj hc.free.2
  have hne : dataPage i ≠ dataPage j := Pipe.dataPage_ne hj hi hc.lt.1.ne
  unfold shareData
  refine returns_bind (sysPageAlloc_spec (Q := fun r t' => (r < 0 ∧ t' = t.asked) ∨
    (r = 0 ∧ t' = t.asked.alloc (dataPage i) pipePerm))
    (fun hr => Or.inl ⟨hr, rfl⟩) (Or.inr ⟨rfl, rfl⟩)) ?_
  rintro r t' (⟨hr, rfl⟩ | ⟨rfl, rfl⟩)
  · rw [if_pos hr]
    exact err2_spec h.since.asked hr
  rw [if_neg (by decide)]
  have hsince : Since s [dataPage i, fdPage j, fdPage i]
      (t.asked.alloc (dataPage i) pipePerm) := h.since.asked.alloc hdi
  have hat : (t.asked.alloc (dataPage i) pipePerm).space (dataPage i) =
      some ⟨t.supply 0, pipePerm⟩ := Space.set_self
  refine returns_bind (sysPageMap_spec (Q := fun r t' =>
    (r < 0 ∧ t' = (t.asked.alloc (dataPage i) pipePerm).asked) ∨
    (r = 0 ∧ t' = (t.asked.alloc (dataPage i) pipePerm).asked.map (dataPage j)
      ⟨t.supply 0, pipePerm⟩)) hat id
    (fun hr => Or.inl ⟨hr, rfl⟩) (Or.inr ⟨rfl, rfl⟩)) ?_
  rintro r t' (⟨hr, rfl⟩ | ⟨rfl, rfl⟩)
  · rw [if_pos hr]
    exact err3_spec hsince.asked hr
  rw [if_neg (by decide)]
  have hmapped : Mapped s i j p0 p1 (t.supply 0) ((t.asked.alloc (dataPage i)
      pipePerm).asked.map (dataPage j) ⟨t.supply 0, pipePerm⟩) := {
    since := hsince.asked.map hdj hat
    fd0 := by
      show ((t.space.set _ _).set _ _) (fdPage i) = _
      rw [Space.set_of_ne (Pipe.fdPage_ne_dataPage hi hj),
        Space.set_of_ne (Pipe.fdPage_ne_dataPage hi hi)]
      exact h.fd0
    fd1 := by
      show ((t.space.set _ _).set _ _) (fdPage j) = _
      rw [Space.set_of_ne (Pipe.fdPage_ne_dataPage hj hj),
        Space.set_of_ne (Pipe.fdPage_ne_dataPage hj hi)]
      exact h.fd1
    data0 := by
      show ((t.space.set _ _).set _ _) (dataPage i) = _
      rw [Space.set_of_ne hne, Space.set_self]
      rfl
    data1 := Space.set_self
    apart := ⟨h.apart, (h.since.supplied.unmapped _ _ 0 h.fd0).symm,
      (h.since.supplied.unmapped _ _ 0 h.fd1).symm⟩
    unused := h.unused
    zero := fun a => by
      show Function.update t.bytes (t.supply 0) _ (t.supply 0) a = 0#8
      rw [Function.update_self] }
  exact setUp_spec hmapped hc

/-- The descriptor that `fd_alloc` finds after the first one was mapped. -/
theorem chosen_of_freeFd {e : UserPte} (hi : freeFd s.space = some i)
    (hsince : Since s [fdPage i] t) (hfd : t.space (fdPage i) = some e)
    (hj : freeFd t.space = some j) : Chosen s i j := by
  obtain ⟨hfree, hlt, hbelow⟩ := freeFd_some hi
  obtain ⟨hfree', hlt', hbelow'⟩ := freeFd_some hj
  have hsame : ∀ k : Nat, k < maxFd → k ≠ i → t.space (fdPage k) = s.space (fdPage k) :=
    fun k hk hne => hsince.space _ (fun hmem =>
      Pipe.fdPage_ne hlt hk hne (List.mem_singleton.mp hmem))
  have hne : j ≠ i := by
    rintro rfl
    rw [hfd] at hfree'
    cases hfree'
  have hfreej : s.space (fdPage j) = none := by
    rw [← hsame j hlt' hne]
    exact hfree'
  have hij : i < j := by
    by_contra hle
    exact hbelow j (by omega) hfreej
  refine ⟨⟨hij, hlt'⟩, ⟨hfree, hfreej⟩, fun k hk hki => ?_⟩
  rw [← hsame k (hk.trans hlt') hki]
  exact hbelow' k hk

theorem second_spec (p0 : Nat) (hs : TableOk s) (hi : freeFd s.space = some i)
    (hsince : Since s [fdPage i] t) (hfd : t.space (fdPage i) = some ⟨p0, pipePerm⟩)
    (hunused : ∀ v e, s.space v = some e → e.page ≠ p0) :
    Returns (second i) (Settled s) t := by
  unfold second fdAlloc
  show Returns (match freeFd t.space with | none => _ | some fd1 => _) (Settled s) t
  cases hj : freeFd t.space with
  | none => exact err1_spec hsince (by decide)
  | some j =>
      have hc : Chosen s i j := chosen_of_freeFd hi hsince hfd hj
      have hne : fdPage i ≠ fdPage j :=
        Pipe.fdPage_ne hc.lt.2 (hc.lt.1.trans hc.lt.2) hc.lt.1.ne
      refine returns_bind (sysPageAlloc_spec (Q := fun r t' => (r < 0 ∧ t' = t.asked) ∨
        (r = 0 ∧ t' = t.asked.alloc (fdPage j) pipePerm))
        (fun hr => Or.inl ⟨hr, rfl⟩) (Or.inr ⟨rfl, rfl⟩)) ?_
      rintro r t' (⟨hr, rfl⟩ | ⟨rfl, rfl⟩)
      · rw [if_pos hr]
        exact err1_spec hsince.asked hr
      rw [if_neg (by decide)]
      have hopened : Opened s i j p0 (t.supply 0) (t.asked.alloc (fdPage j) pipePerm) := {
        since := hsince.asked.alloc hc.free.2
        fd0 := by
          show (t.space.set _ _) (fdPage i) = _
          rw [Space.set_of_ne hne]
          exact hfd
        fd1 := Space.set_self
        apart := hsince.supplied.unmapped _ _ 0 hfd
        unused := fun v e he =>
          ⟨hunused v e he, hsince.supplied.unmapped v e 0 (hsince.was he)⟩ }
      exact shareData_spec hopened hc hs

/-- Whatever the kernel refuses, `pipe` returns; it fails and leaves everything as it was, or
it makes a pipe at the two lowest free descriptors. -/
theorem pipe_settled (s : Opener) (hs : TableOk s) (hp : Supplied s) :
    ∃ res t, pipe.run s = .ret res t ∧ (res.r < 0 ∨ res.r = 0) ∧
      (res.r < 0 → Restored s t) ∧
      (res.r = 0 → ∃ i j, res.pfd = some (i, j) ∧ Connected s t i j) := by
  have hrun : Returns pipe (Settled s) s := by
    unfold pipe fdAlloc
    show Returns (match freeFd s.space with | none => _ | some fd0 => _) (Settled s) s
    cases hi : freeFd s.space with
    | none => exact Or.inl ⟨by decide, (Since.refl hp).restored⟩
    | some i =>
        refine returns_bind (sysPageAlloc_spec (Q := fun r t' => (r < 0 ∧ t' = s.asked) ∨
          (r = 0 ∧ t' = s.asked.alloc (fdPage i) pipePerm))
          (fun hr => Or.inl ⟨hr, rfl⟩) (Or.inr ⟨rfl, rfl⟩)) ?_
        rintro r t' (⟨hr, rfl⟩ | ⟨rfl, rfl⟩)
        · rw [if_pos hr]
          exact Or.inl ⟨hr, (Since.refl hp).asked.restored⟩
        rw [if_neg (by decide)]
        exact second_spec (s.supply 0) hs hi
          ((Since.refl hp).asked.alloc (freeFd_some hi).1) Space.set_self
          (fun v e he => hp.unmapped v e 0 he)
  obtain ⟨res, t, hret, hend⟩ := returns_iff.mp hrun
  refine ⟨res, t, hret, ?_, ?_, ?_⟩
  · exact hend.imp And.left And.left
  · rintro hneg
    rcases hend with ⟨-, h⟩ | ⟨h0, -⟩
    · exact h
    · omega
  · intro h0
    rcases hend with ⟨hneg, -⟩ | ⟨-, h⟩
    · omega
    · exact h

/-- Nothing is open, and the kernel refuses the mapping of the data page. -/
def refusing : Opener where
  space := fun _ => none
  bytes := fun _ _ => 0#8
  supply := id
  answers := fun k => if k = 3 then -4 else 0

theorem pipe_settled_refusing :
    TableOk refusing ∧ Supplied refusing ∧
      ∃ res t, pipe.run refusing = .ret res t ∧ (res.r < 0 ∨ res.r = 0) ∧
        (res.r < 0 → Restored refusing t) ∧
        (res.r = 0 → ∃ i j, res.pfd = some (i, j) ∧ Connected refusing t i j) := by
  have htable : TableOk refusing := fun _ _ h => absurd rfl h
  have hsupplied : Supplied refusing := ⟨fun _ _ h => h, fun _ _ _ h => nomatch h⟩
  exact ⟨htable, hsupplied, pipe_settled refusing htable hsupplied⟩

end PipeCreation

end Jos

import Jos.Invariant
import Jos.Partial

/-!
# Stores through user addresses

A store that goes through a page mapped below `UTOP` changes the contents of
that page, which is neither a directory nor a page table, so no directory reads
differently after it.  Above `UTOP` nothing that user code may write is mapped.
-/

namespace Jos

open Programs RefPool

/-- Contents of mapped pages have changed, and nothing else. -/
structure Stored (managed : Set Nat) (k k' : Kernel) : Prop where
  memory : Memory managed k'
  procs : SameProcs k k'
  frame : VmFrame managed (envDirs k) k.vm k'.vm
  views : SameViews (envDirs k) k.vm.mem k'.vm.mem

section Store

variable {managed : Set Nat} {k k' k'' : Kernel} {m m' : PhysMem}
  {c d i j p o : Nat} {va w : U32} {b : U8}

theorem SameProcs.envDirs_eq (h : SameProcs k k') : envDirs k' = envDirs k :=
  envDirs_congr (fun e _ => by rw [h.envs])

theorem SameViews.trans {dirs : Finset Nat} {mem mem' mem'' : Mem}
    (h : SameViews dirs mem mem') (h' : SameViews dirs mem' mem'') :
    SameViews dirs mem mem'' :=
  ⟨fun d i hd hi => (h'.table d i hd hi).trans (h.table d i hd hi),
    fun d i j hd hi hj => (h'.entry d i j hd hi hj).trans (h.entry d i j hd hi hj)⟩

theorem Stored.trans (h : Stored managed k k') (h' : Stored managed k' k'') :
    Stored managed k k'' := by
  have hdirs := h.procs.envDirs_eq
  refine ⟨h'.memory, h.procs.trans h'.procs, ?_, ?_⟩
  · exact h.frame.trans (hdirs ▸ h'.frame)
  · exact h.views.trans (hdirs ▸ h'.views)

theorem Memory.quiet (h : Memory managed k) (hq : Quiet k k') :
    Memory managed k' := by
  obtain ⟨a, ha⟩ := hq.memory
  have hp := hq.procs
  refine h.congr ⟨?_, ?_, ?_, ?_, ?_⟩ ⟨hp.envFreeList, ?_, ?_, ?_, ?_⟩
  all_goals first
    | (rw [ha])
    | (intro e; rw [hp.envs])

theorem stored_of_quiet (h : Memory managed k) (hq : Quiet k k') :
    Stored managed k k' := by
  obtain ⟨a, ha⟩ := hq.memory
  refine ⟨h.quiet hq, hq.procs, ?_, ?_⟩
  · rw [ha]
    exact ⟨rfl, rfl, rfl, fun _ _ => rfl, fun _ _ _ _ => rfl⟩
  · rw [ha]
    exact ⟨fun _ _ _ _ => rfl, fun _ _ _ _ _ _ => rfl⟩

/-- The contents of a mapped page change: no page table does. -/
theorem Accounted.setPage {free : List Nat} {held dirs : Finset Nat}
    (h : Accounted managed free held dirs m)
    (hd : d ∈ dirs) (hi : i < userPdes) (hj : j < nptentries)
    (hp : mappedPage m.mem d i j = some p) (words : Nat → U32) :
    Accounted managed free held dirs (m.setPage p words) ∧
      VmFrame managed dirs m (m.setPage p words) ∧
      SameViews dirs m.mem (m.setPage p words).mem := by
  have hm := h.spaces.page_managed d i j p hd hi hj hp
  have hdir := h.spaces.page_not_dir d i j p hd hi hj hp
  have hwords : ∀ q, q ≠ p → (m.setPage p words).mem q = m.mem q :=
    fun q hq => Function.update_of_ne hq _ _
  have hviews : SameViews dirs m.mem (m.setPage p words).mem :=
    sameViews_of_unused hdir (fun d' i' hd' hi' =>
      h.spaces.page_not_table d i j p d' i' hd hi hj hd' hi' hp) hwords
  refine ⟨h.of_sameViews hviews (h.ledger.congr rfl rfl rfl), ?_, hviews⟩
  exact ⟨rfl, rfl, rfl, fun q hq => hwords q (fun hh => hq (hh ▸ hm)),
    fun d' i' hd' _ => by rw [hwords d' (fun hh => hdir (hh ▸ hd'))]⟩

theorem Memory.setPage (h : Memory managed k)
    (hd : d ∈ envDirs k) (hi : i < userPdes) (hj : j < nptentries)
    (hp : mappedPage k.vm.mem d i j = some p) (words : Nat → U32) :
    Stored managed k (k.setVm (k.vm.setPage p words)) := by
  obtain ⟨free, hacc⟩ := h.books.accounted
  obtain ⟨hacc', hframe, hviews⟩ := hacc.setPage hd hi hj hp words
  refine ⟨h.setVm hacc' hframe ?_, sameProcs_setVm _, hframe, hviews⟩
  rw [hviews.refCount_eq]
  exact h.counts

/-- Above `UTOP` a writable directory entry is the kernel's: the one for the
page tables themselves is read-only. -/
theorem Memory.upper_kern (h : Memory managed k) (hd : d ∈ envDirs k)
    (hi : userPdes ≤ i) (hwrite : HasFlag (k.vm.mem d i) pteW) :
    i ≠ pdx uvpt ∧ k.vm.mem d i = k.vm.mem k.vm.kernPgdir i := by
  have hword := h.upper d i hd hi
  have hne : i ≠ pdx uvpt := by
    rintro rfl
    rw [hword, newDir, Function.update_self, hasFlag_or, hasFlag_or] at hwrite
    rcases hwrite with (hflag | hflag) | hflag
    · exact not_hasFlag_page2pa (by decide) hflag
    · exact absurd hflag (by decide)
    · exact absurd hflag (by decide)
  rw [hword, newDir, Function.update_of_ne hne]
  exact ⟨hne, rfl⟩

/-- No entry above `UTOP` gives user code a writable page. -/
theorem Memory.user_below (h : Memory managed k) (hd : d ∈ envDirs k)
    (hw : entryOf k.vm.mem d (pdx va) (ptx va) = some w)
    (hwrite : k.vm.xlateHas d va w pteW) (huser : HasFlag w pteU) :
    pdx va < userPdes := by
  by_contra hi
  have hi := Nat.le_of_not_lt hi
  obtain ⟨hne, hkern⟩ := h.upper_kern hd hi hwrite.1
  obtain ⟨t, ht, htw, hpres⟩ := entryOf_eq_some.mp hw
  have htk : tableOf k.vm.mem k.vm.kernPgdir (pdx va) = some t := by
    unfold tableOf at ht ⊢
    rwa [← hkern]
  refine h.books.kernDir.entry (pdx va) t (ptx va) hi (pdx_lt va) hne htk
    (ptx_lt va) ?_
  rw [htw]
  exact ⟨huser, hwrite.2⟩

theorem kernelPage_eq_some {write : Bool} :
    m.kernelPage d va write = some p ↔
      ∃ w, entryOf m.mem d (pdx va) (ptx va) = some w ∧ pgnum w = p ∧
        (write = true → m.xlateHas d va w pteW) := by
  unfold PhysMem.kernelPage
  cases entryOf m.mem d (pdx va) (ptx va) with
  | none => simp
  | some w =>
      simp only [Option.some.injEq, exists_eq_left']
      split
      · rename_i h
        exact ⟨fun hp => ⟨Option.some.inj hp, h⟩, fun hh => congrArg some hh.1⟩
      · rename_i h
        exact ⟨fun hp => absurd hp (by simp), fun hh => absurd hh.2 h⟩

theorem userPage_eq_some {write : Bool} :
    m.userPage d va write = some p ↔
      ∃ w, entryOf m.mem d (pdx va) (ptx va) = some w ∧ pgnum w = p ∧
        m.xlateHas d va w pteU ∧ (write = true → m.xlateHas d va w pteW) := by
  unfold PhysMem.userPage
  cases entryOf m.mem d (pdx va) (ptx va) with
  | none => simp
  | some w =>
      simp only [Option.some.injEq, exists_eq_left']
      split
      · rename_i h
        exact ⟨fun hp => ⟨Option.some.inj hp, h⟩, fun hh => congrArg some hh.1⟩
      · rename_i h
        exact ⟨fun hp => absurd hp (by simp), fun hh => absurd hh.2 h⟩

/-- A store of user code changes the contents of a mapped page. -/
theorem Memory.userStore (h : Memory managed k) (hd : d ∈ envDirs k)
    (hp : k.vm.userPage d va true = some p) (o : Nat) (b : U8) :
    Stored managed k (k.setVm (k.vm.setByte p o b)) := by
  obtain ⟨w, hw, rfl, huser, hwrite⟩ := userPage_eq_some.mp hp
  have hi := h.user_below hd hw (hwrite rfl) huser.2
  exact h.setPage hd hi (ptx_lt va) (mappedPage_eq_some.mpr ⟨w, hw, rfl⟩) _

/-- What is mapped at an address, if anything, is the user's. -/
def Kernel.UserAddr (k : Kernel) (c : Nat) (va : U32) : Prop :=
  ∀ w, entryOf k.vm.mem (k.vm.cr3 c) (pdx va) (ptx va) = some w →
    HasFlag w pteU

/-- No store of the kernel through the address reaches beyond `UTOP`. -/
def Kernel.Harmless (k : Kernel) (c : Nat) (va : U32) : Prop :=
  pdx va < userPdes ∨ k.vm.kernelPage (k.vm.cr3 c) va true = none

theorem Memory.harmless (h : Memory managed k) (hd : k.vm.cr3 c ∈ envDirs k)
    (hu : k.UserAddr c va) : k.Harmless c va := by
  cases hp : k.vm.kernelPage (k.vm.cr3 c) va true with
  | none => exact Or.inr hp
  | some p =>
      obtain ⟨w, hw, -, hwrite⟩ := kernelPage_eq_some.mp hp
      exact Or.inl (h.user_below hd hw (hwrite rfl) (hu w hw))

/-- What the kernel reaches above `UTOP` does not change. -/
theorem Stored.harmless (hs : Stored managed k k') (h : Memory managed k)
    (hd : k.vm.cr3 c ∈ envDirs k) (hh : k.Harmless c va) :
    k'.Harmless c va := by
  by_cases hi : pdx va < userPdes
  · exact Or.inl hi
  have hnone := hh.resolve_left hi
  have hi := Nat.le_of_not_lt hi
  refine Or.inr ?_
  rw [hs.frame.cr3]
  by_contra hne
  obtain ⟨p, hp⟩ := Option.ne_none_iff_exists'.mp hne
  obtain ⟨w, hw, hnum, hwrite⟩ := kernelPage_eq_some.mp hp
  have hword : k'.vm.mem (k.vm.cr3 c) (pdx va) =
      k.vm.mem (k.vm.cr3 c) (pdx va) := hs.frame.upper _ _ hd hi
  obtain ⟨t, ht, htw, hpres⟩ := entryOf_eq_some.mp hw
  have hwrite' := hwrite rfl
  unfold PhysMem.xlateHas at hwrite'
  rw [hword] at hwrite'
  obtain ⟨hne, hkern⟩ := h.upper_kern hd hi hwrite'.1
  have ht' : tableOf k.vm.mem (k.vm.cr3 c) (pdx va) = some t := by
    unfold tableOf at ht ⊢
    rwa [← hword]
  have htk : tableOf k.vm.mem k.vm.kernPgdir (pdx va) = some t := by
    unfold tableOf at ht' ⊢
    rwa [← hkern]
  have houtside := hs.frame.outside t
    (h.books.kernDir.table (pdx va) t hi (pdx_lt va) hne htk)
  have hsome : k.vm.kernelPage (k.vm.cr3 c) va true = some p :=
    kernelPage_eq_some.mpr ⟨w, entryOf_eq_some.mpr
      ⟨t, ht', by rw [← houtside, htw], hpres⟩, hnum, fun _ => hwrite'⟩
  rw [hnone] at hsome
  exact absurd hsome (by simp)

/-- A store of the kernel through a harmless address. -/
theorem pokeByte_stored (h : Memory managed k)
    (hd : k.vm.cr3 c ∈ envDirs k) (hh : k.Harmless c va) :
    wp (pokeByte c va b)
      (Partial (fun _ k' => Stored managed k k') (fun _ => False)) k := by
  unfold pokeByte
  rw [wp_get_bind]
  cases hp : k.vm.kernelPage (k.vm.cr3 c) va true with
  | none => exact trivial
  | some p =>
      have hi : pdx va < userPdes := hh.resolve_right (by rw [hp]; simp)
      obtain ⟨w, hw, rfl, -⟩ := kernelPage_eq_some.mp hp
      exact h.setPage hd hi (ptx_lt va) (mappedPage_eq_some.mpr ⟨w, hw, rfl⟩) _

theorem storeByte_stored (h : Memory managed k)
    (hd : k.vm.cr3 c ∈ envDirs k) (hh : k.Harmless c va) :
    wp (storeByte c va b)
      (Partial (fun _ k' => Stored managed k k') (fun _ => False)) k := by
  unfold storeByte
  rw [wp_modify_bind]
  have hlog := stored_of_quiet h (quiet_log (k := k) (.access va true))
  have hd' : k.vm.cr3 c ∈ envDirs (k.log (.access va true)) := by
    rw [hlog.procs.envDirs_eq]
    exact hd
  exact wp_mono (pokeByte_stored hlog.memory hd' hh)
    (fun _ _ h₂ => hlog.trans h₂) (fun _ h => h) (fun _ h => h)

theorem storeBytes_stored {bs : List U8} (h : Memory managed k)
    (hd : k.vm.cr3 c ∈ envDirs k)
    (hh : ∀ n, n < bs.length → k.Harmless c (va + BitVec.ofNat 32 n)) :
    wp (storeBytes c va bs)
      (Partial (fun _ k' => Stored managed k k') (fun _ => False)) k := by
  induction bs generalizing va k with
  | nil => exact stored_of_quiet h (.refl k)
  | cons b bs ih =>
      have hfirst : k.Harmless c va := by
        have := hh 0 (by simp)
        rwa [show va + BitVec.ofNat 32 0 = va by simp] at this
      refine partial_bind (storeByte_stored h hd hfirst) (fun _ k₁ h₁ => ?_)
        (fun _ h => h)
      have hd₁ : k₁.vm.cr3 c ∈ envDirs k₁ := by
        rw [h₁.procs.envDirs_eq, h₁.frame.cr3]
        exact hd
      refine wp_mono (ih h₁.memory hd₁ (fun n hn => ?_))
        (fun _ _ h₂ => h₁.trans h₂) (fun _ h => h) (fun _ h => h)
      have hnext := hh (n + 1) (by simpa using hn)
      rw [show va + BitVec.ofNat 32 (n + 1) =
        va + 1#32 + BitVec.ofNat 32 n by
          rw [Nat.add_comm n 1, BitVec.ofNat_add, ← BitVec.add_assoc]] at hnext
      exact h₁.harmless h hd hnext

end Store

/-! ## What is stored can be loaded -/

theorem byte_of_word (w : U32) (b : U8) {r s : Nat} (hr : r < 4) (hs : s < 4) :
    (((w &&& ~~~(0xFF#32 <<< (8 * r))) ||| (b.setWidth 32 <<< (8 * r))) >>>
      (8 * s)).setWidth 8 = if s = r then b else (w >>> (8 * s)).setWidth 8 := by
  have hmask : ∀ i, (0xFF#32).getLsbD i = decide (i < 8) := by
    intro i
    by_cases hi : i < 32
    · interval_cases i <;> rfl
    · rw [BitVec.getLsbD_of_ge _ _ (by omega)]
      simp
      omega
  apply BitVec.eq_of_getLsbD_eq
  intro i hi
  have hlt : 8 * s + i < 32 := by omega
  by_cases hsr : s = r
  · subst hsr
    rw [if_pos rfl]
    simp only [BitVec.getLsbD_setWidth, BitVec.getLsbD_ushiftRight,
      BitVec.getLsbD_or, BitVec.getLsbD_and, BitVec.getLsbD_not,
      BitVec.getLsbD_shiftLeft, hmask, hi]
    simp [hlt, hi]
    omega
  · rw [if_neg hsr]
    simp only [BitVec.getLsbD_setWidth, BitVec.getLsbD_ushiftRight,
      BitVec.getLsbD_or, BitVec.getLsbD_and, BitVec.getLsbD_not,
      BitVec.getLsbD_shiftLeft, hmask, hi]
    by_cases hbelow : 8 * s + i < 8 * r
    · simp [hlt, hbelow]
    · have habove : ¬ (8 * s + i - 8 * r < 8) := by omega
      have hzero : b.getLsbD (8 * s + i - 8 * r) = false :=
        BitVec.getLsbD_of_ge _ _ (by omega)
      simp [hlt, hbelow, habove, hzero]

/-- The bytes of memory after one is set. -/
theorem byte_setByte (m : PhysMem) (p o q n : Nat) (b : U8) :
    (m.setByte p o b).byte q n = if q = p ∧ n = o then b else m.byte q n := by
  by_cases hq : q = p
  · subst hq
    by_cases hn : n / 4 = o / 4
    · have hword : (m.setByte q o b).mem q (n / 4) =
          ((m.mem q (n / 4) &&& ~~~(0xFF#32 <<< (8 * (o % 4)))) |||
            (b.setWidth 32 <<< (8 * (o % 4)))) := by
        rw [hn]
        simp [PhysMem.setByte, PhysMem.setWord, PhysMem.setPage]
      have hiff : n % 4 = o % 4 ↔ n = o := by omega
      unfold PhysMem.byte
      rw [hword, byte_of_word _ _ (Nat.mod_lt _ (by decide))
        (Nat.mod_lt _ (by decide))]
      simp only [hiff, true_and]
    · have hne : n ≠ o := fun hh => hn (by rw [hh])
      rw [if_neg (fun hh => hne hh.2)]
      simp [PhysMem.byte, PhysMem.setByte, PhysMem.setWord, PhysMem.setPage, hn]
  · rw [if_neg (fun hh => hq hh.1)]
    simp [PhysMem.byte, PhysMem.setByte, PhysMem.setWord, PhysMem.setPage, hq]

theorem u32OfBytes_bytesOfU32 (w : U32) : u32OfBytes (bytesOfU32 w) = w := by
  apply BitVec.eq_of_getLsbD_eq
  intro i hi
  simp only [bytesOfU32, u32OfBytes]
  interval_cases i <;> simp

section ReadBack

variable {managed : Set Nat} {k k' : Kernel} {c p o : Nat} {va : U32} {b : U8}

/-- A byte at another offset in its page is not touched. -/
theorem storeByte_keeps (ho : pgoff va ≠ o) :
    wp (storeByte c va b)
      (Partial (fun _ k' => ∀ p, k'.vm.byte p o = k.vm.byte p o)
        (fun _ => False)) k := by
  unfold storeByte pokeByte
  rw [wp_modify_bind, wp_get_bind]
  cases (k.log (.access va true)).vm.kernelPage
      ((k.log (.access va true)).vm.cr3 c) va true with
  | none => exact trivial
  | some q =>
      intro p
      refine (byte_setByte _ q (pgoff va) p o b).trans ?_
      rw [if_neg (fun hh => ho hh.2.symm)]
      rfl

theorem storeBytes_keeps {bs : List U8}
    (ho : ∀ n, n < bs.length → pgoff (va + BitVec.ofNat 32 n) ≠ o) :
    wp (storeBytes c va bs)
      (Partial (fun _ k' => ∀ p, k'.vm.byte p o = k.vm.byte p o)
        (fun _ => False)) k := by
  induction bs generalizing va k with
  | nil => exact fun _ => rfl
  | cons b bs ih =>
      have hfirst : pgoff va ≠ o := by
        have := ho 0 (by simp)
        rwa [show va + BitVec.ofNat 32 0 = va by simp] at this
      refine partial_bind (storeByte_keeps hfirst) (fun _ k₁ h₁ => ?_)
        (fun _ h => h)
      refine wp_mono (ih (fun n hn => ?_)) (fun _ _ h₂ p => (h₂ p).trans (h₁ p))
        (fun _ h => h) (fun _ h => h)
      have hnext := ho (n + 1) (by simpa using hn)
      rwa [show va + BitVec.ofNat 32 (n + 1) =
        va + 1#32 + BitVec.ofNat 32 n by
          rw [Nat.add_comm n 1, BitVec.ofNat_add, ← BitVec.add_assoc]] at hnext

/-- The kernel reads through a mapping below `UTOP` before and after a store. -/
theorem Stored.kernelPage (hs : Stored managed k k')
    (hd : k.vm.cr3 c ∈ envDirs k) (hi : pdx va < userPdes)
    (hp : k.vm.kernelPage (k.vm.cr3 c) va true = some p) :
    k'.vm.kernelPage (k'.vm.cr3 c) va false = some p := by
  obtain ⟨w, hw, hnum, -⟩ := kernelPage_eq_some.mp hp
  refine kernelPage_eq_some.mpr ⟨w, ?_, hnum, fun h => absurd h (by decide)⟩
  rw [hs.frame.cr3, hs.views.entry _ _ _ hd hi (ptx_lt va)]
  exact hw

/-- The kernel reads byte `b` at address `va`, below `UTOP`. -/
def Kernel.Reads (k : Kernel) (c : Nat) (va : U32) (b : U8) : Prop :=
  pdx va < userPdes ∧ ∃ p, k.vm.kernelPage (k.vm.cr3 c) va false = some p ∧
    k.vm.byte p (pgoff va) = b

/-- A store elsewhere does not change what is read. -/
theorem Kernel.Reads.stored (h : k.Reads c va b) (hs : Stored managed k k')
    (hd : k.vm.cr3 c ∈ envDirs k)
    (hkeep : ∀ p, k'.vm.byte p (pgoff va) = k.vm.byte p (pgoff va)) :
    k'.Reads c va b := by
  obtain ⟨hi, p, hp, hb⟩ := h
  obtain ⟨w, hw, hnum, -⟩ := kernelPage_eq_some.mp hp
  refine ⟨hi, p, kernelPage_eq_some.mpr ⟨w, ?_, hnum, fun h => absurd h (by decide)⟩,
    (hkeep p).trans hb⟩
  rw [hs.frame.cr3, hs.views.entry _ _ _ hd hi (ptx_lt va)]
  exact hw

/-- Bytes stored at consecutive addresses, fewer than a page of them, are read
there. -/
theorem storeBytes_reads {bs : List U8} (h : Memory managed k)
    (hd : k.vm.cr3 c ∈ envDirs k) (hlen : bs.length ≤ 4096)
    (hh : ∀ n, n < bs.length → k.Harmless c (va + BitVec.ofNat 32 n)) :
    wp (storeBytes c va bs)
      (Partial (fun _ k' => Stored managed k k' ∧ ∀ n (hn : n < bs.length),
        k'.Reads c (va + BitVec.ofNat 32 n) (bs.get ⟨n, hn⟩))
        (fun _ => False)) k := by
  induction bs generalizing va k with
  | nil => exact ⟨stored_of_quiet h (.refl k), fun n hn => absurd hn (by simp)⟩
  | cons b bs ih =>
      have hfirst : k.Harmless c va := by
        have := hh 0 (by simp)
        rwa [show va + BitVec.ofNat 32 0 = va by simp] at this
      have hcons : ∀ n, va + BitVec.ofNat 32 (n + 1) =
          va + 1#32 + BitVec.ofNat 32 n := fun n => by
        rw [Nat.add_comm n 1, BitVec.ofNat_add, ← BitVec.add_assoc]
      -- where the first byte goes
      have hbyte : wp (storeByte c va b)
          (Partial (fun _ k₁ => Stored managed k k₁ ∧ k₁.Reads c va b)
            (fun _ => False)) k := by
        have hspec := storeByte_stored (b := b) h hd hfirst
        unfold storeByte pokeByte at hspec ⊢
        rw [wp_modify_bind, wp_get_bind] at hspec ⊢
        rw [Kernel.log_vm] at hspec ⊢
        cases hp : k.vm.kernelPage (k.vm.cr3 c) va true with
        | none => exact trivial
        | some p =>
            rw [hp] at hspec
            have hs : Stored managed k _ := hspec
            have hi := hfirst.resolve_right (by rw [hp]; simp)
            refine ⟨hs, hi, p, hs.kernelPage hd hi hp, ?_⟩
            refine (byte_setByte _ p (pgoff va) p (pgoff va) b).trans ?_
            rw [if_pos ⟨rfl, rfl⟩]
      refine partial_bind hbyte ?_ (fun _ h => h)
      rintro _ k₁ ⟨h₁, hread⟩
      have hd₁ : k₁.vm.cr3 c ∈ envDirs k₁ := by
        rw [h₁.procs.envDirs_eq, h₁.frame.cr3]
        exact hd
      have hrest : wp (storeBytes c (va + 1#32) bs) _ k₁ :=
        ih h₁.memory hd₁ (Nat.le_of_succ_le hlen)
        (fun n hn => h₁.harmless h hd (hcons n ▸ hh (n + 1) (by simpa using hn)))
      -- the first byte stays
      have hkeep : wp (storeBytes c (va + 1#32) bs) (Partial (fun _ k₂ =>
          ∀ p, k₂.vm.byte p (pgoff va) = k₁.vm.byte p (pgoff va))
            (fun _ => False)) k₁ := by
        refine storeBytes_keeps (fun n hn => ?_)
        have hn' : n + 1 < 4096 := by
          have : bs.length + 1 ≤ 4096 := hlen
          omega
        rw [← hcons n, pgoff_eq, pgoff_eq, BitVec.toNat_add, BitVec.toNat_ofNat]
        omega
      refine wp_mono (wp_and hrest hkeep) ?_ (fun _ h => h.1) (fun _ _ => trivial)
      rintro _ k₂ ⟨⟨h₂, hreads⟩, hsame⟩
      refine ⟨h₁.trans h₂, fun n hn => ?_⟩
      cases n with
      | zero =>
          rw [show va + BitVec.ofNat 32 0 = va by simp]
          exact hread.stored h₂ hd₁ hsame
      | succ n =>
          rw [hcons n]
          exact hreads n (Nat.lt_of_succ_lt_succ hn)

/-- What is loaded is what is read, byte by byte. -/
theorem loadBytes_reads {n : Nat} :
    wp (loadBytes c va n) (Partial (fun bs k' => k'.vm = k.vm ∧ bs.length = n ∧
      ∀ i b, i < n → k.Reads c (va + BitVec.ofNat 32 i) b → bs[i]? = some b)
      (fun _ => False)) k := by
  induction n generalizing va k with
  | zero => exact ⟨rfl, rfl, fun i b hi => absurd hi (Nat.not_lt_zero i)⟩
  | succ n ih =>
      have hload : wp (loadByte c va) (Partial (fun r k₁ => k₁.vm = k.vm ∧
          ∀ b, k.Reads c va b → r = b) (fun _ => False)) k := by
        unfold loadByte peekByte
        rw [wp_modify_bind, wp_get_bind, Kernel.log_vm]
        cases hp : k.vm.kernelPage (k.vm.cr3 c) va false with
        | none => exact trivial
        | some p =>
            refine ⟨rfl, fun b hb => ?_⟩
            obtain ⟨-, p', hp', hb⟩ := hb
            obtain rfl := Option.some.inj (hp.symm.trans hp')
            exact hb
      refine partial_bind hload ?_ (fun _ h => h)
      rintro r k₁ ⟨hvm, hr⟩
      refine partial_bind ih ?_ (fun _ h => h)
      rintro bs k₂ ⟨hvm₂, hlen, hbs⟩
      refine ⟨hvm₂.trans hvm, by rw [List.length_cons, hlen], fun i b hi hb => ?_⟩
      cases i with
      | zero =>
          rw [show va + BitVec.ofNat 32 0 = va by simp] at hb
          rw [List.getElem?_cons_zero, hr b hb]
      | succ i =>
          rw [List.getElem?_cons_succ]
          refine hbs i b (Nat.lt_of_succ_lt_succ hi) ?_
          unfold Kernel.Reads at hb ⊢
          rw [hvm]
          rwa [Nat.add_comm i 1, BitVec.ofNat_add, ← BitVec.add_assoc] at hb

/-- A word that was stored is loaded again. -/
theorem storeU32_loads {w : U32} (h : Memory managed k)
    (hd : k.vm.cr3 c ∈ envDirs k)
    (hh : ∀ n, n < 4 → k.Harmless c (va + BitVec.ofNat 32 n)) :
    wp (storeU32 c va w)
      (Partial (fun _ k₁ => Stored managed k k₁ ∧
        wp (loadU32 c va) (Partial (fun r k₂ => r = w ∧ Quiet k₁ k₂)
          (fun _ => False)) k₁) (fun _ => False)) k := by
  refine wp_mono (storeBytes_reads h hd (by simp [bytesOfU32]) hh) ?_
    (fun _ h => h) (fun _ h => h)
  rintro _ k₁ ⟨h₁, hreads⟩
  refine ⟨h₁, ?_⟩
  have hquiet : wp (loadBytes c va 4)
      (Partial (fun _ k' => Quiet k₁ k') (fun _ => False)) k₁ := loadBytes_wp
  unfold loadU32
  refine partial_bind (wp_and loadBytes_reads hquiet) ?_ (fun _ h => h.1)
  rintro bs k₂ ⟨⟨-, hlen, hbs⟩, hq⟩
  have hsame : bs = bytesOfU32 w := by
    refine List.ext_getElem? (fun i => ?_)
    by_cases hi : i < 4
    · have hi' : i < (bytesOfU32 w).length := hi
      rw [hbs i _ hi (hreads i hi'), List.getElem?_eq_getElem hi']
      rfl
    · rw [List.getElem?_eq_none (by omega),
        List.getElem?_eq_none (by simp [bytesOfU32]; omega)]
  refine ⟨?_, hq⟩
  rw [hsame]
  exact u32OfBytes_bytesOfU32 w

end ReadBack

end Jos

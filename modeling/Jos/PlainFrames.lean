import Jos.Sound

/-!
# The trap frames of ordinary environments

Ordinary user code runs at privilege level 3 with interrupts on and no access
to I/O ports.  `env_alloc` makes such a frame, and what `sys_env_set_trapframe`
reads back from user memory, after it has patched it there, is such a frame
again.
-/

namespace Jos

open Programs

/-- `tf_cs` is `GD_UT|3`, the I/O privilege level is 0 and `FL_IF` is set. -/
structure Trapframe.Plain (tf : Trapframe) : Prop where
  cs : tf.tfCs = gdUt ||| 3#16
  iopl : tf.tfEflags &&& flIoplMask = 0#32
  interrupts : HasFlag tf.tfEflags flIf

instance (tf : Trapframe) : Decidable tf.Plain :=
  decidable_of_iff (tf.tfCs = gdUt ||| 3#16 ∧ tf.tfEflags &&& flIoplMask = 0#32 ∧
    HasFlag tf.tfEflags flIf)
    ⟨fun h => ⟨h.1, h.2.1, h.2.2⟩, fun h => ⟨h.cs, h.iopl, h.interrupts⟩⟩

theorem Trapframe.Plain.congr {tf tf' : Trapframe} (h : tf.Plain)
    (hcs : tf'.tfCs = tf.tfCs) (hflags : tf'.tfEflags = tf.tfEflags) :
    tf'.Plain :=
  ⟨hcs.trans h.cs, by rw [hflags]; exact h.iopl, by
    rw [hflags]
    exact h.interrupts⟩

section Patched

variable {managed : Set Nat} {k k' : Kernel} {c : Nat} {tf : U32}

/-- The kernel reads the half word and the word that make a frame plain at the
addresses of `tf_cs` and `tf_eflags`. -/
structure PlainAt (k : Kernel) (c : Nat) (tf : U32) : Prop where
  cs : ∀ n (hn : n < (bytesOfU16 (gdUt ||| 3#16)).length),
    k.Reads c (tf + BitVec.ofNat 32 (52 + n))
      ((bytesOfU16 (gdUt ||| 3#16)).get ⟨n, hn⟩)
  eflags : ∀ n (hn : n < (bytesOfU32 flIf).length),
    k.Reads c (tf + BitVec.ofNat 32 (56 + n)) ((bytesOfU32 flIf).get ⟨n, hn⟩)

/-- The stores of `sys_env_set_trapframe`. -/
theorem patchTf_plainAt (h : Memory managed k) (hd : k.vm.cr3 c ∈ envDirs k)
    (hsafe : (VmOp.patch tf).Safe k c) :
    wp (patchTf c tf) (Partial (fun _ k' => PlainAt k' c tf) (fun _ => False))
      k := by
  have hh : ∀ m n, 52 ≤ m + n → m + n < 60 →
      k.Harmless c (tf + BitVec.ofNat 32 m + BitVec.ofNat 32 n) :=
    fun m n hlo hhi => by
      rw [add_ofNat]
      exact h.harmless hd (hsafe (m + n) hlo hhi)
  have hdir : ∀ k₁, Stored managed k k₁ → k₁.vm.cr3 c ∈ envDirs k₁ := by
    intro k₁ h₁
    rw [h₁.procs.envDirs_eq, h₁.frame.cr3]
    exact hd
  unfold patchTf
  refine partial_bind (storeU32_loads h hd (fun n hn => hh 56 n (by omega)
    (by omega))) ?_ (fun _ h => h)
  rintro _ k₁ ⟨h₁, hload⟩
  refine partial_bind hload ?_ (fun _ h => h)
  rintro eflags k₂ ⟨rfl, hq⟩
  have h₂ := h₁.trans (stored_of_quiet h₁.memory hq)
  rw [show flIf &&& ~~~flIoplMask = flIf by decide]
  refine partial_bind (storeBytes_reads h₂.memory (hdir k₂ h₂)
    (by simp [bytesOfU32]) (fun n hn => ?_)) ?_ (fun _ h => h)
  · have hn : n < 4 := hn
    exact h₂.harmless h hd (hh 56 n (by omega) (by omega))
  rintro _ k₃ ⟨hs₃, hflags⟩
  have h₃ := h₂.trans hs₃
  -- `tf_cs` lies in other bytes of a page than `tf_eflags`
  have hkeeps : ∀ n, n < 4 → wp (storeU16 c (tf + 52#32) (gdUt ||| 3#16))
      (Partial (fun _ k₄ => ∀ p, k₄.vm.byte p (pgoff (tf + 56#32 + BitVec.ofNat 32 n)) =
        k₃.vm.byte p (pgoff (tf + 56#32 + BitVec.ofNat 32 n)))
        (fun _ => False)) k₃ := by
    intro n hn
    refine storeBytes_keeps (fun m hm => ?_)
    have hm : m < 2 := hm
    rw [pgoff_eq, pgoff_eq, show (56#32 : U32) = BitVec.ofNat 32 56 from rfl,
      show (52#32 : U32) = BitVec.ofNat 32 52 from rfl, add_ofNat, add_ofNat,
      BitVec.toNat_add, BitVec.toNat_add, BitVec.toNat_ofNat, BitVec.toNat_ofNat]
    omega
  have hall := wp_and (show wp (storeBytes c (tf + 52#32) (bytesOfU16 (gdUt ||| 3#16))) _ k₃ from
    storeBytes_reads h₃.memory (hdir k₃ h₃) (by simp [bytesOfU16]) (fun n hn => by
      have hn : n < 2 := hn
      exact h₃.harmless h hd (hh 52 n (by omega) (by omega))))
    (wp_and (hkeeps 0 (by decide)) (wp_and (hkeeps 1 (by decide))
      (wp_and (hkeeps 2 (by decide)) (hkeeps 3 (by decide)))))
  refine wp_mono hall ?_ (fun _ h => h.1) (fun _ h => h)
  rintro _ k₄ ⟨⟨hs₄, hcs⟩, h0, h1, h2, h3⟩
  refine ⟨fun n hn => ?_, fun n hn => ?_⟩
  · have := hcs n hn
    rwa [show (52#32 : U32) = BitVec.ofNat 32 52 from rfl, add_ofNat] at this
  · have hread := hflags n hn
    have hn' : n < 4 := hn
    have hstay : k₄.Reads c (tf + 56#32 + BitVec.ofNat 32 n)
        ((bytesOfU32 flIf).get ⟨n, hn⟩) := by
      refine hread.stored hs₄ (hdir k₃ h₃) ?_
      interval_cases n
      · exact h0
      · exact h1
      · exact h2
      · exact h3
    rwa [show (56#32 : U32) = BitVec.ofNat 32 56 from rfl, add_ofNat] at hstay

theorem drop_of_getElem? {α : Type} {l : List α} {i : Nat} {a : α}
    (h : l[i]? = some a) : l.drop i = a :: l.drop (i + 1) := by
  rw [List.drop_eq_getElem?_toList_append, h]
  rfl

/-- The low half of a word is its first two bytes. -/
theorem u32OfBytes_low (a b : U8) (bs : List U8) :
    (u32OfBytes (a :: b :: bs)).setWidth 16 = (u32OfBytes [a, b]).setWidth 16 := by
  apply BitVec.eq_of_getLsbD_eq
  intro i hi
  simp only [u32OfBytes]
  interval_cases i <;> simp

/-- The frame that is read back is plain. -/
theorem loadTrapframe_plain (h : PlainAt k c tf) :
    wp (loadTrapframe c tf)
      (Partial (fun frame k' => frame.Plain ∧ k'.vm = k.vm) (fun _ => False))
      k := by
  unfold loadTrapframe
  refine partial_bind loadBytes_reads ?_ (fun _ h => h)
  rintro bs k₁ ⟨hvm, hlen, hbs⟩
  refine ⟨?_, hvm⟩
  have hcs : ∀ n (hn : n < 2), bs[52 + n]? =
      some ((bytesOfU16 (gdUt ||| 3#16)).get ⟨n, hn⟩) := fun n hn =>
    hbs _ _ (by omega) (h.cs n hn)
  have hflags : ∀ n (hn : n < 4), bs[56 + n]? =
      some ((bytesOfU32 flIf).get ⟨n, hn⟩) := fun n hn =>
    hbs _ _ (by omega) (h.eflags n hn)
  have hcsWord : (trapframeOfWords (fun i =>
      u32OfBytes ((bs.drop (4 * i)).take 4))).tfCs = gdUt ||| 3#16 := by
    show (u32OfBytes ((bs.drop 52).take 4)).setWidth 16 = gdUt ||| 3#16
    rw [drop_of_getElem? (hcs 0 (by decide)), drop_of_getElem? (hcs 1 (by decide))]
    simp only [List.take_succ_cons]
    rw [u32OfBytes_low]
    decide
  have hflagsWord : (trapframeOfWords (fun i =>
      u32OfBytes ((bs.drop (4 * i)).take 4))).tfEflags = flIf := by
    show u32OfBytes ((bs.drop 56).take 4) = flIf
    rw [drop_of_getElem? (hflags 0 (by decide)),
      drop_of_getElem? (hflags 1 (by decide)),
      drop_of_getElem? (hflags 2 (by decide)),
      drop_of_getElem? (hflags 3 (by decide))]
    simp only [List.take_succ_cons, List.take_zero]
    exact u32OfBytes_bytesOfU32 flIf
  refine ⟨hcsWord, ?_, ?_⟩
  · rw [hflagsWord]
    decide
  · rw [hflagsWord]
    decide

end Patched

end Jos

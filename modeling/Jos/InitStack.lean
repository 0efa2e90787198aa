import Jos.HeapBlocks
import Jos.SpawnLeaks

/-!
# The stack that `init_stack` makes

The strings are at the top of the page, the array of pointers is below them, and the two
words that `umain` takes are below the array.  `init_stack` finds out whether all of it
fits by looking where the two words would go; the sizes are words of 32 bits, so for
very many arguments the place wraps around to the top of the address space.

* `argsPage` is the page that the loop of `init_stack` fills.
-/

namespace Jos.User

open Programs Bytes

/-- The bytes of the strings, with their ends. -/
def stringBytes (argv : List (List U8)) : Nat := (argv.map (fun a => a.length + 1)).sum

/-- What the strings, the array and the two words take, each at a multiple of four. -/
def stackBytes (argv : List (List U8)) : Nat :=
  (stringBytes argv + 3) / 4 * 4 + 4 * (argv.length + 1) + 8

/-- `bs` is what is loaded from address `a` on. -/
def Loads (load : Nat → Option U8) (a : Nat) (bs : List U8) : Prop :=
  ∀ k, k < bs.length → load (a + k) = bs[k]?

/-- The page that the child has as its stack. -/
def stackBase : Nat := (stackPages - 1) * 4096

/-- The two words, the array and the strings: where each begins and how long it is. -/
def stackAreas (argv : List (List U8)) (esp array : U32) (ptrs : List U32) : List (Nat × Nat) :=
  (esp.toNat, 8) :: (array.toNat, 4 * (argv.length + 1)) ::
    List.zipWith (fun (p : U32) arg => (p.toNat, arg.length + 1)) ptrs argv

/-- What the child finds on its stack, with its stack pointer at `esp`. -/
structure StackAt (argv : List (List U8)) (load : Nat → Option U8) (esp array : U32)
    (ptrs : List U32) : Prop where
  aligned : esp.toNat % 4 = 0
  argc : Loads load esp.toNat (bytesOfU32 (BitVec.ofNat 32 argv.length))
  args : Loads load (esp.toNat + 4) (bytesOfU32 array)
  count : ptrs.length = argv.length
  pointers : ∀ (i : Nat) p, ptrs[i]? = some p → Loads load (array.toNat + 4 * i) (bytesOfU32 p)
  last : Loads load (array.toNat + 4 * argv.length) (bytesOfU32 0#32)
  strings : ∀ (i : Nat) p arg, ptrs[i]? = some p → argv[i]? = some arg →
    Loads load p.toNat (arg ++ [0#8])
  apart : (stackAreas argv esp array ptrs).Pairwise (fun x y => x.1 + x.2 ≤ y.1)
  inside : ∀ x, x ∈ stackAreas argv esp array ptrs →
    stackBase ≤ x.1 ∧ x.1 + x.2 ≤ stackBase + 4096

/-- A load by the child. -/
def childLoad (c : Caller) (a : Nat) : Option U8 :=
  c.child.bind (fun t => (t.entry (a / 4096)).map (fun w => c.bytes w.page (a % 4096)))

/-- What `init_stack` is for: the child has its arguments, or nothing new. -/
def StackMade (argv : List (List U8)) (s : SpawnState) : Prop :=
  ∃ r esp s', (initStack argv).run s = .ret (r, esp) s' ∧
    (r < 0 → s'.caller.child.map PageTable.entry = s.caller.child.map PageTable.entry) ∧
    (0 ≤ r → ∃ array ptrs, StackAt argv (childLoad s'.caller) esp array ptrs) ∧
    (4096 < stackBytes argv → r = -eNoMem)

section Page

variable {c : Caller} {w : UserPte} {m : Bytes.Memory} {o x a b i : Nat} {bs : List U8}
  {argv args : List (List U8)} {arg : List U8}

/-! ## Stores to the page at `UTEMP` -/

/-- The page of `w` has the contents `m`. -/
def withPage (c : Caller) (w : UserPte) (m : Bytes.Memory) : Caller :=
  { c with bytes := Function.update c.bytes w.page m }

theorem utemp_toNat (hx : x < 4096) : (utemp + BitVec.ofNat 32 x).toNat = 0x400000 + x := by
  rw [BitVec.toNat_add, BitVec.toNat_ofNat]
  change (0x400000 + _) % 2 ^ 32 = _
  omega

theorem utemp_succ : utemp + BitVec.ofNat 32 x + 1#32 = utemp + BitVec.ofNat 32 (x + 1) := by
  rw [BitVec.add_assoc, BitVec.ofNat_add]

theorem storeByte_utemp {y : U8} (hpage : c.own.entry utempPage = some w)
    (hw : HasFlag w.perm pteW) (hx : x < 4096) :
    (storeByte (utemp + BitVec.ofNat 32 x) y).run (withPage c w m) =
      .ret () (withPage c w (Function.update m x y)) := by
  have haddr := utemp_toNat hx
  have hnum : pgnum (utemp + BitVec.ofNat 32 x) = utempPage := by
    rw [pgnum_eq, haddr, utempPage]
    omega
  have hoff : pgoff (utemp + BitVec.ofNat 32 x) = x := by
    rw [pgoff_eq, haddr]
    omega
  have hentry : (withPage c w m).own.entry (pgnum (utemp + BitVec.ofNat 32 x)) = some w := by
    rw [hnum]
    exact hpage
  unfold storeByte
  rw [Prog.run_bind_ret (Prog.run_get _), hentry]
  dsimp only
  rw [if_pos hw, hoff, Prog.run_modify]
  simp only [withPage, Function.update_self, Function.update_idem]

theorem storeBytes_utemp (hpage : c.own.entry utempPage = some w) (hw : HasFlag w.perm pteW)
    (ho : o + bs.length ≤ 4096) :
    (storeBytes (utemp + BitVec.ofNat 32 o) bs).run (withPage c w m) =
      .ret () (withPage c w (setBytes m o bs)) := by
  induction bs generalizing o m with
  | nil =>
      rw [setBytes_nil]
      rfl
  | cons y bs ih =>
      rw [List.length_cons] at ho
      unfold storeBytes
      rw [Prog.run_bind_ret (storeByte_utemp hpage hw (by omega)), utemp_succ,
        ih (by omega), setBytes_cons]

theorem bytesAt_setWord {y : U32} : bytesAt (setWord m o y) o 4 = bytesOfU32 y := by
  rw [← setBytes_word]
  exact bytesAt_setBytes_self

theorem storeU32_utemp {y : U32} (hpage : c.own.entry utempPage = some w)
    (hw : HasFlag w.perm pteW) (ho : o + 4 ≤ 4096) :
    (storeU32 (utemp + BitVec.ofNat 32 o) y).run (withPage c w m) =
      .ret () (withPage c w (setWord m o y)) := by
  unfold storeU32
  rw [storeBytes_utemp hpage hw ho, setBytes_word]

/-! ## The loop -/

/-- The address in the child of offset `o` of the stack page. -/
def stackAddr (o : Nat) : U32 := BitVec.ofNat 32 (stackBase + o)

/-- The page after the loop of `init_stack`: pointers from `a + 4 * i` on, strings from
`b` on. -/
def argsPage (a : Nat) : Nat → Nat → List (List U8) → Bytes.Memory → Bytes.Memory
  | _, _, [], m => m
  | i, b, arg :: args, m =>
      argsPage a (i + 1) (b + (arg.length + 1)) args
        (setBytes (setWord m (a + 4 * i) (stackAddr b)) b (arg ++ [0#8]))

theorem utemp2Ustack_utemp : utemp2Ustack (utemp + BitVec.ofNat 32 o) = stackAddr o := by
  unfold utemp2Ustack stackAddr
  rw [BitVec.ofNat_add]
  have hbase : (ustacktop - pgsize : U32) = BitVec.ofNat 32 (stackBase) := by decide
  rw [hbase, BitVec.add_comm utemp, BitVec.add_assoc, BitVec.add_comm utemp,
    ← BitVec.add_assoc, BitVec.add_sub_cancel, BitVec.add_comm]

theorem storeArgs_run (hpage : c.own.entry utempPage = some w) (hw : HasFlag w.perm pteW)
    (ha : a + 4 * (i + args.length) ≤ 4096) (hb : b + stringBytes args ≤ 4096) :
    (storeArgs (utemp + BitVec.ofNat 32 a) i (utemp + BitVec.ofNat 32 b) args).run
      (withPage c w m) = .ret (utemp + BitVec.ofNat 32 (b + stringBytes args))
        (withPage c w (argsPage a i b args m)) := by
  induction args generalizing i b m with
  | nil => rfl
  | cons arg args ih =>
      rw [List.length_cons] at ha
      have hsum : stringBytes (arg :: args) = arg.length + 1 + stringBytes args := rfl
      rw [hsum] at hb ⊢
      have hslot : utemp + BitVec.ofNat 32 a + 4#32 * BitVec.ofNat 32 i =
          utemp + BitVec.ofNat 32 (a + 4 * i) := by
        rw [BitVec.ofNat_add, BitVec.ofNat_mul, BitVec.add_assoc]
      have hnext : utemp + BitVec.ofNat 32 b + BitVec.ofNat 32 (arg.length + 1) =
          utemp + BitVec.ofNat 32 (b + (arg.length + 1)) := by
        rw [BitVec.ofNat_add b, BitVec.add_assoc]
      unfold storeArgs
      rw [hslot, hnext, Prog.run_bind_ret (storeU32_utemp hpage hw (by omega)),
        Prog.run_bind_ret (storeBytes_utemp hpage hw
          (by rw [List.length_append, List.length_singleton]; omega)),
        ih (by omega) (by omega), utemp2Ustack_utemp, Nat.add_assoc]
      rfl

/-- Where the strings are. -/
def stringOffsets : Nat → List (List U8) → List Nat
  | _, [] => []
  | b, arg :: args => b :: stringOffsets (b + (arg.length + 1)) args

theorem stringOffsets_length : (stringOffsets b args).length = args.length := by
  induction args generalizing b with
  | nil => rfl
  | cons arg args ih => exact congrArg (· + 1) ih

theorem stringOffsets_bounds {k : Nat} (hk : (stringOffsets b args)[k]? = some o)
    (harg : args[k]? = some arg) : b ≤ o ∧ o + (arg.length + 1) ≤ b + stringBytes args := by
  induction args generalizing b k with
  | nil => cases hk
  | cons arg' args ih =>
      have hsum : stringBytes (arg' :: args) = arg'.length + 1 + stringBytes args := rfl
      rw [hsum]
      cases k with
      | zero =>
          cases hk
          cases harg
          omega
      | succ k =>
          have hrest := ih (b := b + (arg'.length + 1)) hk harg
          omega

theorem argsPage_apart (hslots : x < a + 4 * i ∨ a + 4 * (i + args.length) ≤ x)
    (hstrings : x < b ∨ b + stringBytes args ≤ x) : argsPage a i b args m x = m x := by
  induction args generalizing i b m with
  | nil => rfl
  | cons arg args ih =>
      have hsum : stringBytes (arg :: args) = arg.length + 1 + stringBytes args := rfl
      rw [List.length_cons] at hslots
      rw [hsum] at hstrings
      unfold argsPage
      rw [ih (by omega) (by omega),
        setBytes_of_apart (by rw [List.length_append, List.length_singleton]; omega),
        setWord_of_apart (by omega)]

theorem argsPage_pointer {k : Nat} (hab : a + 4 * (i + args.length) ≤ b)
    (hk : (stringOffsets b args)[k]? = some o) :
    bytesAt (argsPage a i b args m) (a + 4 * (i + k)) 4 = bytesOfU32 (stackAddr o) := by
  induction args generalizing i b m k with
  | nil => cases hk
  | cons arg args ih =>
      rw [List.length_cons] at hab
      unfold argsPage
      cases k with
      | zero =>
          have ho : b = o := Option.some.inj hk
          have hkept : bytesAt (argsPage a (i + 1) (b + (arg.length + 1)) args
              (setBytes (setWord m (a + 4 * i) (stackAddr b)) b (arg ++ [0#8]))) (a + 4 * i) 4 =
              bytesAt (setWord m (a + 4 * i) (stackAddr b)) (a + 4 * i) 4 := by
            refine bytesAt_congr (fun x hle hlt => ?_)
            rw [argsPage_apart (Or.inl (by omega)) (Or.inl (by omega)),
              setBytes_of_apart (Or.inl (by omega))]
          rw [show i + 0 = i from rfl, hkept, bytesAt_setWord, ho]
      | succ k =>
          rw [show i + (k + 1) = i + 1 + k by omega]
          exact ih (by omega) hk

theorem argsPage_string {k : Nat} (hab : a + 4 * (i + args.length) ≤ b)
    (hk : (stringOffsets b args)[k]? = some o) (harg : args[k]? = some arg) :
    bytesAt (argsPage a i b args m) o (arg.length + 1) = arg ++ [0#8] := by
  induction args generalizing i b m k with
  | nil => cases hk
  | cons arg' args ih =>
      rw [List.length_cons] at hab
      unfold argsPage
      cases k with
      | zero =>
          have ho : b = o := Option.some.inj hk
          have hsame : arg' = arg := Option.some.inj harg
          subst ho hsame
          have hlen : (arg' ++ [0#8]).length = arg'.length + 1 := by simp
          have hkept : bytesAt (argsPage a (i + 1) (b + (arg'.length + 1)) args
              (setBytes (setWord m (a + 4 * i) (stackAddr b)) b (arg' ++ [0#8]))) b
                (arg'.length + 1) =
              bytesAt (setBytes (setWord m (a + 4 * i) (stackAddr b)) b (arg' ++ [0#8])) b
                (arg'.length + 1) :=
            bytesAt_congr (fun x hle hlt =>
              argsPage_apart (Or.inr (by omega)) (Or.inl (by omega)))
          rw [hkept, ← hlen, bytesAt_setBytes_self]
      | succ k => exact ih (by omega) hk harg

/-! ## The sizes -/

theorem stringSize_eq : stringSize argv = BitVec.ofNat 32 (stringBytes argv) := by
  unfold stringSize stringBytes
  induction argv with
  | nil => rfl
  | cons arg argv ih =>
      rw [List.map_cons, List.sum_cons, ih, List.map_cons, List.sum_cons,
        BitVec.ofNat_add (arg.length + 1)]

variable (argv) in
theorem length_le_stringBytes : argv.length ≤ stringBytes argv := by
  unfold stringBytes
  induction argv with
  | nil => exact Nat.le_refl 0
  | cons arg argv ih =>
      rw [List.length_cons, List.map_cons, List.sum_cons]
      omega

/-- Where the array goes, as long as this is not below zero. -/
theorem argvStore_toNat (hsize : stringBytes argv < 0x400000) :
    (argvStore argv).toNat =
      (0x100401000 - (stringBytes argv + 3) / 4 * 4 - 4 * (argv.length + 1)) % 2 ^ 32 := by
  have hcount := length_le_stringBytes argv
  have hstart : (stringStore argv).toNat = 0x401000 - stringBytes argv := by
    unfold stringStore
    rw [stringSize_eq, BitVec.toNat_sub, BitVec.toNat_ofNat]
    change (2 ^ 32 - _ + 0x401000) % 2 ^ 32 = _
    omega
  have hround : (roundDown (stringStore argv) 4#32).toNat =
      0x401000 - (stringBytes argv + 3) / 4 * 4 := by
    rw [roundDown_four, hstart]
    omega
  have hwords : (4#32 * BitVec.ofNat 32 (argv.length + 1)).toNat = 4 * (argv.length + 1) := by
    rw [BitVec.toNat_mul, show (4#32).toNat = 4 from rfl, BitVec.toNat_ofNat]
    omega
  unfold argvStore
  rw [BitVec.toNat_sub, hround, hwords]
  omega

/-- The test of `init_stack`. -/
theorem refused_iff (hsize : stringBytes argv < 0x400000) :
    argvStore argv - 8#32 < utemp ↔ 4096 < stackBytes argv ∧ stackBytes argv ≤ 0x401000 := by
  have hcount := length_le_stringBytes argv
  have hstore := argvStore_toNat hsize
  have hplace : (argvStore argv - 8#32).toNat = (0x100401000 - stackBytes argv) % 2 ^ 32 := by
    unfold stackBytes
    rw [BitVec.toNat_sub, hstore]
    change (2 ^ 32 - 8 + _) % 2 ^ 32 = _
    omega
  rw [BitVec.lt_def, hplace]
  change _ < 0x400000 ↔ _
  have hbound : stackBytes argv ≤ 0x2000000 := by
    unfold stackBytes
    omega
  omega

/-- If all of it fits, both areas are in the page. -/
theorem stores_eq (hfits : stackBytes argv ≤ 4096) :
    ∃ a b, argvStore argv = utemp + BitVec.ofNat 32 a ∧
      stringStore argv = utemp + BitVec.ofNat 32 b ∧ 8 ≤ a ∧ a % 4 = 0 ∧
      a + 4 * (argv.length + 1) ≤ b ∧ b + stringBytes argv = 4096 := by
  have hcount := length_le_stringBytes argv
  unfold stackBytes at hfits
  have hstore := (argvStore_toNat (by omega) : (argvStore argv).toNat = _)
  refine ⟨4096 - (stringBytes argv + 3) / 4 * 4 - 4 * (argv.length + 1),
    4096 - stringBytes argv, ?_, ?_, by omega, by omega, by omega, by omega⟩
  · apply BitVec.eq_of_toNat_eq
    rw [utemp_toNat (by omega), hstore]
    omega
  · unfold stringStore
    rw [stringSize_eq]
    apply BitVec.eq_of_toNat_eq
    rw [BitVec.toNat_sub, BitVec.toNat_ofNat, BitVec.toNat_add utemp (BitVec.ofNat 32 _),
      BitVec.toNat_ofNat]
    change (2 ^ 32 - _ + 0x401000) % 2 ^ 32 = (0x400000 + _) % 2 ^ 32
    omega

/-- The stack page, from the contents that it had. -/
def stackPage (a b : Nat) (argv : List (List U8)) (m : Bytes.Memory) : Bytes.Memory :=
  setWord (setWord (setWord (argsPage a 0 b argv m) (a + 4 * argv.length) 0#32) (a - 4)
    (stackAddr a)) (a - 8) (BitVec.ofNat 32 argv.length)

theorem fillStack_run (hpage : c.own.entry utempPage = some w) (hw : HasFlag w.perm pteW)
    (ha : argvStore argv = utemp + BitVec.ofNat 32 a)
    (hb : stringStore argv = utemp + BitVec.ofNat 32 b) (hlow : 8 ≤ a)
    (hab : a + 4 * (argv.length + 1) ≤ b) (hend : b + stringBytes argv = 4096) :
    (fillStack argv).run (withPage c w m) =
      .ret () (withPage c w (stackPage a b argv m)) := by
  have hback : ∀ k, k ≤ a → utemp + BitVec.ofNat 32 a - BitVec.ofNat 32 k =
      utemp + BitVec.ofNat 32 (a - k) := by
    intro k hk
    rw [show BitVec.ofNat 32 a = BitVec.ofNat 32 (a - k) + BitVec.ofNat 32 k by
      rw [← BitVec.ofNat_add, Nat.sub_add_cancel hk], ← BitVec.add_assoc,
      BitVec.add_sub_cancel]
  have hslot : utemp + BitVec.ofNat 32 a + 4#32 * BitVec.ofNat 32 argv.length =
      utemp + BitVec.ofNat 32 (a + 4 * argv.length) := by
    rw [BitVec.ofNat_add, BitVec.ofNat_mul, BitVec.add_assoc]
  have hcheck : ¬ (utemp + BitVec.ofNat 32 4096 ≠ utemp + pgsize) := not_not.mpr rfl
  unfold fillStack
  rw [ha, hb, Prog.run_bind_ret (storeArgs_run hpage hw (by omega) (by omega)), hend, hslot,
    Prog.run_bind_ret (storeU32_utemp hpage hw (by omega)), Prog.run_bind_ret
      (Prog.run_when_false hcheck), hback 4 (by omega), hback 8 hlow,
    utemp2Ustack_utemp, Prog.run_bind_ret (storeU32_utemp hpage hw (by omega)),
    storeU32_utemp hpage hw (by omega)]
  rfl

/-! ## What the child finds -/

theorem stackAddr_toNat (ho : o ≤ 4096) :
    (stackAddr o).toNat = stackBase + o := by
  unfold stackAddr
  rw [BitVec.toNat_ofNat]
  exact Nat.mod_eq_of_lt (Nat.lt_of_le_of_lt (Nat.add_le_add_left ho stackBase) (by decide))

/-- What a page at the top of the stack holds, the child loads. -/
theorem loads_page {load : Nat → Option U8} (hload : ∀ x, x < 4096 →
    load (stackBase + x) = some (m x)) (ho : o + bs.length ≤ 4096)
    (hbytes : bytesAt m o bs.length = bs) :
    Loads load (stackBase + o) bs := by
  intro k hk
  rw [Nat.add_assoc, hload (o + k) (by omega), bytesAt_getElem hbytes hk,
    List.getElem?_eq_getElem hk]

variable (b args) in
/-- The strings follow one another. -/
theorem stringAreas (hb : b + stringBytes args ≤ 4096) :
    (∀ y, y ∈ List.zipWith (fun (p : U32) arg => (p.toNat, arg.length + 1))
        ((stringOffsets b args).map stackAddr) args →
      stackBase + b ≤ y.1 ∧ y.1 + y.2 ≤ stackBase + 4096) ∧
    (List.zipWith (fun (p : U32) arg => (p.toNat, arg.length + 1))
      ((stringOffsets b args).map stackAddr) args).Pairwise (fun y z => y.1 + y.2 ≤ z.1) := by
  induction args generalizing b with
  | nil => exact ⟨fun y hy => (nomatch hy), List.Pairwise.nil⟩
  | cons arg args ih =>
      have hsum : stringBytes (arg :: args) = arg.length + 1 + stringBytes args := rfl
      rw [hsum] at hb
      obtain ⟨hin, hpair⟩ := ih (b := b + (arg.length + 1)) (by omega)
      have hstart := stackAddr_toNat (o := b) (by omega)
      have hcons : List.zipWith (fun (p : U32) arg => (p.toNat, arg.length + 1))
          ((stringOffsets b (arg :: args)).map stackAddr) (arg :: args) =
          ((stackAddr b).toNat, arg.length + 1) ::
            List.zipWith (fun (p : U32) arg => (p.toNat, arg.length + 1))
              ((stringOffsets (b + (arg.length + 1)) args).map stackAddr) args := rfl
      rw [hcons]
      refine ⟨fun y hy => ?_, List.Pairwise.cons (fun z hz => ?_) hpair⟩
      · rcases List.mem_cons.mp hy with hfirst | hrest
        · rw [hfirst, hstart]
          dsimp only
          omega
        · have hy := hin y hrest
          omega
      · have hz := hin z hz
        rw [hstart]
        omega

/-- The finished page has the two words, the array and the strings. -/
theorem stackPage_at {load : Nat → Option U8} (hload : ∀ x, x < 4096 →
    load (stackBase + x) = some (stackPage a b argv m x)) (hlow : 8 ≤ a)
    (halign : a % 4 = 0) (hab : a + 4 * (argv.length + 1) ≤ b)
    (hend : b + stringBytes argv = 4096) :
    StackAt argv load (stackAddr (a - 8)) (stackAddr a)
      ((stringOffsets b argv).map stackAddr) := by
  have hesp := stackAddr_toNat (o := a - 8) (by omega)
  have harray := stackAddr_toNat (o := a) (by omega)
  have hbase : stackBase % 4 = 0 := by decide
  have hstrings := stringAreas b argv (by omega)
  have haddr := fun (o : Nat) (ho : o ≤ 4096) => stackAddr_toNat ho
  have hloads := fun (o : Nat) (bs : List U8) (ho : o + bs.length ≤ 4096)
    (hbytes : bytesAt (stackPage a b argv m) o bs.length = bs) => loads_page hload ho hbytes
  -- above the words and beside the last slot, the page is as the loop left it
  have hloop : ∀ x, a ≤ x → (x < a + 4 * argv.length ∨ a + 4 * argv.length + 4 ≤ x) →
      stackPage a b argv m x = argsPage a 0 b argv m x := by
    intro x hx hslot
    unfold stackPage
    rw [setWord_of_apart (Or.inr (by omega)), setWord_of_apart (Or.inr (by omega)),
      setWord_of_apart (by omega)]
  have hargc : bytesAt (stackPage a b argv m) (a - 8) 4 =
      bytesOfU32 (BitVec.ofNat 32 argv.length) := bytesAt_setWord
  have hargs : bytesAt (stackPage a b argv m) (a - 4) 4 = bytesOfU32 (stackAddr a) := by
    refine (bytesAt_congr (fun x hle hlt => ?_)).trans (bytesAt_setWord (m := setWord
      (argsPage a 0 b argv m) (a + 4 * argv.length) 0#32))
    exact setWord_of_apart (Or.inr (by omega))
  have hlast : bytesAt (stackPage a b argv m) (a + 4 * argv.length) 4 = bytesOfU32 0#32 := by
    refine (bytesAt_congr (fun x hle hlt => ?_)).trans
      (bytesAt_setWord (m := argsPage a 0 b argv m))
    unfold stackPage
    rw [setWord_of_apart (Or.inr (by omega)), setWord_of_apart (Or.inr (by omega))]
  have hoffset : ∀ (i : Nat) p, ((stringOffsets b argv).map stackAddr)[i]? = some p →
      ∃ o, (stringOffsets b argv)[i]? = some o ∧ stackAddr o = p := by
    intro i p hp
    rw [List.getElem?_map] at hp
    exact Option.map_eq_some_iff.mp hp
  obtain ⟨hin, hpair⟩ := hstrings
  refine ⟨?_, ?_, ?_, ?_, ?_, ?_, ?_, ?_, ?_⟩
  · rw [hesp]
    omega
  · rw [hesp]
    exact hloads _ _ (by change a - 8 + 4 ≤ 4096; omega) hargc
  · rw [hesp, show stackBase + (a - 8) + 4 = stackBase + (a - 4) by omega]
    exact hloads _ _ (by change a - 4 + 4 ≤ 4096; omega) hargs
  · rw [List.length_map, stringOffsets_length]
  · intro i p hp
    obtain ⟨o, ho, rfl⟩ := hoffset i p hp
    have hi : i < argv.length := by
      rw [← stringOffsets_length (b := b)]
      exact (List.getElem?_eq_some_iff.mp ho).1
    have hpointer := argsPage_pointer (a := a) (i := 0) (m := m) (by omega) ho
    rw [Nat.zero_add] at hpointer
    rw [harray, Nat.add_assoc]
    refine hloads _ _ (by change a + 4 * i + 4 ≤ 4096; omega) ?_
    rw [← hpointer]
    exact bytesAt_congr (fun x hle hlt => hloop x (by omega) (Or.inl (by
      change x < a + 4 * i + 4 at hlt
      omega)))
  · rw [harray, Nat.add_assoc]
    exact hloads _ _ (by change a + 4 * argv.length + 4 ≤ 4096; omega) hlast
  · intro i p arg hp harg
    obtain ⟨o, ho, rfl⟩ := hoffset i p hp
    obtain ⟨hfirst, hends⟩ := stringOffsets_bounds ho harg
    have hlen : (arg ++ [0#8]).length = arg.length + 1 := by simp
    rw [haddr o (by omega)]
    refine hloads _ _ (by omega) ?_
    rw [hlen, ← argsPage_string (a := a) (i := 0) (m := m) (by omega) ho harg]
    exact bytesAt_congr (fun x hle hlt => hloop x (by omega) (Or.inr (by omega)))
  · unfold stackAreas
    rw [hesp, harray]
    refine List.Pairwise.cons (fun y hy => ?_) (List.Pairwise.cons (fun y hy => ?_) hpair)
    · rcases List.mem_cons.mp hy with hfirst | hrest
      · rw [hfirst]
        dsimp only
        omega
      · have hy := (hin y hrest).1
        dsimp only
        omega
    · have hy := (hin y hy).1
      dsimp only
      omega
  · intro y hy
    unfold stackAreas at hy
    rw [hesp, harray] at hy
    rcases List.mem_cons.mp hy with hfirst | hrest
    · rw [hfirst]
      dsimp only
      omega
    rcases List.mem_cons.mp hrest with hsecond | hthird
    · rw [hsecond]
      dsimp only
      omega
    · have hy := hin y hthird
      omega

/-! ## The page is given to the child -/

/-- The child loads what its page at the top of the stack holds. -/
theorem childLoad_stack {t : PageTable} (ht : c.child = some t)
    (hentry : t.entry (stackPages - 1) = some w) (hx : x < 4096) :
    childLoad c (stackBase + x) = some (c.bytes w.page x) := by
  have hnum : (stackBase + x) / 4096 = stackPages - 1 := by
    unfold stackBase stackPages
    omega
  have hoff : (stackBase + x) % 4096 = x := by
    unfold stackBase stackPages
    omega
  unfold childLoad
  rw [ht, hnum, hoff, Option.bind_some, hentry]
  rfl

theorem unmap_utemp_run :
    (sysPageUnmap utempPage).run c = .ret 0 { c with own := c.own.clear utempPage } := by
  unfold sysPageUnmap
  rw [if_pos (by decide)]
  rfl

/-- A call of `spawn` that is known to return. -/
theorem returns_call {α β : Type} {call : Prog Caller α} {f : α → Prog SpawnState β}
    {s : SpawnState} {Q : α → Caller → Prop} {R : β → SpawnState → Prop}
    (h : Returns call Q s.caller)
    (hR : ∀ y c, Q y c → Returns (f y) R { s with caller := c }) :
    Returns (onCaller call >>= f) R s :=
  (wp_bind _ _ _).mpr ((wp_zoom _ _ call).mpr (wp_of_returns h hR))

/-- A call of `spawn` that may stop. -/
theorem partial_call {α β : Type} {call : Prog Caller α} {f : α → Prog SpawnState β}
    {s : SpawnState} {Q : α → Caller → Prop} {R : β → SpawnState → Prop}
    (h : wp call (Partial Q (fun _ => True)) s.caller)
    (hR : ∀ y c, Q y c → wp (f y) (Partial R (fun _ => True)) { s with caller := c }) :
    wp (onCaller call >>= f) (Partial R (fun _ => True)) s :=
  (wp_bind _ _ _).mpr ((wp_zoom _ _ call).mpr
    (wp_mono h hR (fun _ ht => ht) (fun _ ht => ht)))

theorem stackMade_of_refused {s : SpawnState} (hrefused : argvStore argv - 8#32 < utemp) :
    StackMade argv s := by
  have hrun : (initStack argv).run s =
      .ret (-eNoMem, 0#32) { s with refused := s.refused ++ [.arguments] } := by
    rw [initStack_refused hrefused]
    rfl
  exact ⟨_, _, _, hrun, fun _ => rfl, fun hle => absurd hle (by decide), fun _ => rfl⟩

/-- All of it fits. -/
theorem stackMade_of_fits {s : SpawnState} {t : PageTable} (hchild : s.caller.child = some t)
    (hfits : stackBytes argv ≤ 4096) : StackMade argv s := by
  have hcount : stringBytes argv < 0x400000 := by
    unfold stackBytes at hfits
    omega
  have haccepted : ¬ argvStore argv - 8#32 < utemp := by
    rw [refused_iff hcount]
    omega
  obtain ⟨a, b, ha, hb, hlow, halign, hab, hend⟩ := stores_eq hfits
  have hesp : utemp2Ustack (argvStore argv - 8#32) = stackAddr (a - 8) := by
    rw [ha, show BitVec.ofNat 32 a = BitVec.ofNat 32 (a - 8) + 8#32 by
      rw [← BitVec.ofNat_add, Nat.sub_add_cancel hlow], ← BitVec.add_assoc,
      BitVec.add_sub_cancel, utemp2Ustack_utemp]
  have hgoal : Returns (initStack argv) (fun x s' =>
      (x.1 < 0 → s'.caller.child.map PageTable.entry = s.caller.child.map PageTable.entry) ∧
      (0 ≤ x.1 → ∃ array ptrs, StackAt argv (childLoad s'.caller) x.2 array ptrs)) s := by
    unfold initStack
    rw [if_neg haccepted]
    refine returns_call (sysPageAlloc_returns rfl) ?_
    rintro r c (⟨hneg, -, -, hkept, -⟩ | ⟨rfl, hin, k, rfl⟩)
    · rw [if_pos hneg]
      exact ⟨fun _ => congrArg (Option.map PageTable.entry) hkept,
        fun hle => absurd hneg (Int.not_lt.mpr hle)⟩
    rw [if_neg (by decide)]
    have hwrite : HasFlag (pteP ||| pteU ||| pteW) pteW := by decide
    have hself : (s.caller.own.fill utempPage ⟨s.caller.fresh, pteP ||| pteU ||| pteW⟩ hin).entry
        utempPage = some ⟨s.caller.fresh, pteP ||| pteU ||| pteW⟩ := PageTable.fill_self
    have hfill := fillStack_run (m := fun _ => 0#8)
      (w := ⟨s.caller.fresh, pteP ||| pteU ||| pteW⟩)
      (c := Caller.setSpace { s.caller with asked := k, fresh := s.caller.fresh + 1 }
        (s.caller.own.fill utempPage ⟨s.caller.fresh, pteP ||| pteU ||| pteW⟩ hin) .own)
      hself hwrite ha hb hlow hab hend
    refine wp_ret_bind (Prog.run_zoom_ret hfill) ?_
    refine returns_call (sysPageMap_returns (t := t)
      (w := ⟨s.caller.fresh, pteP ||| pteU ||| pteW⟩) hchild hself) ?_
    rintro r c ⟨k', ⟨hneg, -, rfl⟩ | ⟨rfl, hin', rfl⟩⟩
    · rw [if_pos hneg]
      refine wp_modify_bind.mpr (wp_ret_bind (Prog.run_zoom_ret unmap_utemp_run) ?_)
      exact ⟨fun _ => rfl, fun hle => absurd hneg (Int.not_lt.mpr hle)⟩
    · rw [if_neg (by decide)]
      refine wp_ret_bind (Prog.run_zoom_ret unmap_utemp_run) ?_
      refine ⟨fun hneg => absurd hneg (Int.lt_irrefl 0), fun _ => ⟨stackAddr a,
        (stringOffsets b argv).map stackAddr, ?_⟩⟩
      dsimp only
      rw [hesp]
      refine stackPage_at (m := fun _ => 0#8) (fun x hx => ?_) hlow halign hab hend
      refine (childLoad_stack rfl PageTable.fill_self hx).trans (congrArg some ?_)
      exact congrFun (Function.update_self s.caller.fresh _ _) x
  obtain ⟨x, s', hrun, herr, hok⟩ := returns_iff.mp hgoal
  exact ⟨x.1, x.2, s', hrun, herr, hok, fun hlarge => absurd hfits (Nat.not_le.mpr hlarge)⟩

/-- There are so many arguments that the place of the two words wraps around: they are
not refused, although they do not fit. -/
theorem not_stackMade_of_wrapped {s : SpawnState} {t : PageTable}
    (hchild : s.caller.child = some t) (hmemory : s.caller.memory = fun _ => true)
    (hsize : stringBytes argv < 0x400000) (hwrapped : 0x401000 < stackBytes argv) :
    ¬ StackMade argv s := by
  have haccepted : ¬ argvStore argv - 8#32 < utemp := by
    rw [refused_iff hsize]
    omega
  have hgoal : wp (initStack argv) (Partial (fun x _ => 0 ≤ x.1) (fun _ => True)) s := by
    unfold initStack
    rw [if_neg haccepted]
    refine partial_call (wp_of_returns (sysPageAlloc_returns rfl) (fun _ _ h => h)) ?_
    rintro r c (⟨hneg, hno, -⟩ | ⟨rfl, hin, k, rfl⟩)
    · obtain ⟨n, hn⟩ := hno (by decide)
      rw [hmemory] at hn
      cases hn
    dsimp only
    rw [if_neg (by decide)]
    have hkept : Ends (fun c : Caller => c.own = s.caller.own.fill utempPage
        ⟨s.caller.fresh, pteP ||| pteU ||| pteW⟩ hin ∧ c.child = some t ∧
        c.memory = fun _ => true) (fillStack argv) := ends_fillStack (fun _ _ h => h)
    refine partial_call (hkept.after ⟨rfl, hchild, hmemory⟩) ?_
    rintro - c ⟨hown, hchild', hmemory'⟩
    have hself : c.own.entry utempPage = some ⟨s.caller.fresh, pteP ||| pteU ||| pteW⟩ := by
      rw [hown]
      exact PageTable.fill_self
    refine partial_call (wp_of_returns (sysPageMap_returns hchild' hself) (fun _ _ h => h)) ?_
    rintro r c' ⟨-, ⟨-, hno, -⟩ | ⟨rfl, -⟩⟩
    · have hwrite : HasFlag (pteP ||| pteU ||| pteW) pteW := by decide
      obtain ⟨⟨n, hn⟩, -⟩ := hno ⟨by decide, by decide, fun _ => hwrite⟩
      rw [hmemory'] at hn
      cases hn
    · rw [if_neg (by decide)]
      exact wp_ret_bind (Prog.run_zoom_ret unmap_utemp_run) (Int.le_refl 0)
  rintro ⟨r, esp, s', hrun, -, -, hlarge⟩
  have hpos : 0 ≤ r := wp_ret hgoal hrun
  rw [hlarge (by omega)] at hpos
  exact absurd hpos (by decide)

end Page

/-- `init_stack` does what it is for, whatever memory there is, exactly if the place of
the two words does not wrap around. -/
theorem stack_made_iff {argv : List (List U8)} {s : SpawnState} {t : PageTable}
    (hchild : s.caller.child = some t) (hsize : stringBytes argv < 0x400000) :
    (∀ memory, StackMade argv { s with caller := { s.caller with memory := memory } }) ↔
      stackBytes argv ≤ 0x401000 := by
  constructor
  · intro hall
    by_contra hlarge
    exact not_stackMade_of_wrapped (by exact hchild) rfl hsize (Nat.lt_of_not_le hlarge)
      (hall (fun _ => true))
  · intro hsmall memory
    rcases Nat.lt_or_ge 4096 (stackBytes argv) with hlarge | hfits
    · exact stackMade_of_refused ((refused_iff hsize).mpr ⟨hlarge, hsmall⟩)
    · exact stackMade_of_fits (by exact hchild) hfits

/-- A caller with a new child. -/
def forkedSpawn : SpawnState :=
  { freshSpawn with caller := { freshSpawn.caller with child := some PageTable.empty } }

theorem stack_made_iff_echo :
    (∀ memory, StackMade [[0x65#8, 0x63#8], []]
      { forkedSpawn with caller := { forkedSpawn.caller with memory := memory } }) ↔
      stackBytes [[0x65#8, 0x63#8], []] ≤ 0x401000 := stack_made_iff rfl (by decide)

theorem stringBytes_empty {n : Nat} : stringBytes (List.replicate n []) = n := by
  unfold stringBytes
  rw [List.map_replicate, List.sum_replicate]
  exact Nat.mul_one n

/-- A million empty arguments are not refused. -/
theorem not_stack_made : ¬ ∀ (argv : List (List U8)) (s : SpawnState) (t : PageTable),
    s.caller.child = some t → stringBytes argv < 0x400000 → StackMade argv s := by
  intro hall
  obtain ⟨n, hlow, hhigh⟩ : ∃ n, 1000000 < n ∧ n < 0x400000 :=
    ⟨1000001, by decide, by decide⟩
  have hsize : stringBytes (List.replicate n []) < 0x400000 := by
    rw [stringBytes_empty]
    exact hhigh
  have hwrapped : 0x401000 < stackBytes (List.replicate n []) := by
    unfold stackBytes
    rw [stringBytes_empty, List.length_replicate]
    omega
  exact not_stackMade_of_wrapped (s := forkedSpawn) rfl rfl hsize hwrapped
    (hall _ forkedSpawn _ rfl hsize)

end Jos.User

import Jos.Lib.WhileLoop
import Mathlib.Order.Defs.LinearOrder
import Mathlib.Tactic.Ring

/-!
# `stab_binsearch` of `kern/kdebug.c`

The entries of one type lie among others, so every probe of the binary search
goes back to the last entry of the type.  After an exact match the search goes
on for the next address, to find where the region ends; it takes an entry at
just that address for another exact match.  And it takes any entry of the type
for a match, also when all of them lie behind the address.
-/

namespace Jos

open WhileLoop

/-- `struct Stab`, the fields that the search reads. -/
structure Stab where
  nType : BitVec 8
  nValue : BitVec 32
deriving DecidableEq

/-- The variables of `stab_binsearch`. -/
structure Search where
  l : Int
  r : Int
  regionLeft : Int
  regionRight : Int
  anyMatches : Bool
  addr : BitVec 32
deriving DecidableEq

section StabSearch

/- The array; there is nothing to read at other places. -/
variable (stabs : Int → Option Stab) (type : Int)

/-- `while (m >= l && stabs[m].n_type != type) m--;`, for `n` places from
`m = l + n - 1` on. -/
def scanBack (l : Int) : Nat → Option Int
  | 0 => some (l - 1)
  | n + 1 => do
      let s ← stabs (l + n)
      if (s.nType.toNat : Int) ≠ type then scanBack l n else some (l + n)

/-- One turn of the loop. -/
def Search.turn (s : Search) : Option Search := do
  let trueM := (s.l + s.r).tdiv 2
  let m ← scanBack stabs type s.l (trueM - s.l + 1).toNat
  if m < s.l then
    some { s with l := trueM + 1 }
  else do
    let e ← stabs m
    if e.nValue < s.addr then
      some { s with anyMatches := true, regionLeft := m, l := trueM + 1 }
    else if e.nValue > s.addr then
      some { s with anyMatches := true, regionRight := m - 1, r := m - 1 }
    else
      some { s with anyMatches := true, regionLeft := m, l := m, addr := s.addr + 1#32 }

/-- The loop goes on. -/
def Search.Going (s : Search) : Prop := s.l ≤ s.r

instance : DecidablePred Search.Going := fun s => inferInstanceAs (Decidable (s.l ≤ s.r))

/-- What is done behind the loop. -/
def Search.finish (s : Search) : Option (Int × Int) :=
  if s.anyMatches = false then
    some (s.regionLeft, s.regionLeft - 1)
  else if s.regionRight ≤ s.regionLeft then
    some (s.regionRight, s.regionRight)
  else do
    let l ← scanBack stabs type (s.regionLeft + 1) (s.regionRight - s.regionLeft).toNat
    some (l, s.regionRight)

/-- `stab_binsearch`: what it leaves in `*region_left` and `*region_right`. -/
def stabBinsearch (fuel : Nat) (left right : Int) (addr : BitVec 32) : Option (Int × Int) := do
  let s ← whileLoop Search.Going (Search.turn stabs type) fuel
    ⟨left, right, left, right, false, addr⟩
  s.finish stabs type

end StabSearch

/-- The stabs of the example in the comment: left is 3 and right 5. -/
example : stabBinsearch (fun i => if i = 0 then some ⟨0x64, 0xf0100000⟩
      else if i = 2 then some ⟨0x64, 0xf0100176⟩ else if i = 3 then some ⟨0x64, 0xf0100178⟩
      else if i = 6 then some ⟨0x64, 0xf0100652⟩ else if 0 ≤ i ∧ i < 8 then some ⟨0x24, 0⟩
      else none) 0x64 20 0 7 0xf0100184 = some (3, 5) := by decide

/-! ## What the search is to find -/

/-- Place `i` has an entry of the type. -/
def HasStab (stabs : Int → Option Stab) (type i : Int) (v : BitVec 32) : Prop :=
  ∃ e, stabs i = some e ∧ (e.nType.toNat : Int) = type ∧ e.nValue = v

/-- A range of the array in which the entries of the type are in order. -/
structure StabRange (stabs : Int → Option Stab) (type left right : Int) : Prop where
  nonneg : 0 ≤ left
  defined : ∀ i, left ≤ i → i ≤ right → ∃ e, stabs i = some e
  sorted : ∀ i j v w, left ≤ i → i ≤ j → j ≤ right → HasStab stabs type i v →
    HasStab stabs type j w → v ≤ w

/-- Some entry of the type in the range is at the address or before it. -/
def SomeBelow (stabs : Int → Option Stab) (type left right : Int) (addr : BitVec 32) : Prop :=
  ∃ i v, left ≤ i ∧ i ≤ right ∧ HasStab stabs type i v ∧ v ≤ addr

/-- The region from `l` to `r` is the one that contains the address. -/
structure Region (stabs : Int → Option Stab) (type left right : Int) (addr : BitVec 32)
    (l r : Int) : Prop where
  inside : left ≤ l ∧ l ≤ right
  contains : ∃ v, HasStab stabs type l v ∧ v ≤ addr
  last : ∀ i v, l < i → i ≤ right → HasStab stabs type i v → addr < v
  next : ∀ i v, l < i → i ≤ right → HasStab stabs type i v → r < i
  ends : l ≤ r ∧ (r = right ∨ r < right ∧ ∃ v, HasStab stabs type (r + 1) v)

/-- What the comment at `stab_binsearch` promises. -/
structure Brackets (stabs : Int → Option Stab) (type left right : Int) (addr : BitVec 32)
    (l r : Int) : Prop where
  found : SomeBelow stabs type left right addr → Region stabs type left right addr l r
  notFound : ¬ SomeBelow stabs type left right addr → r < l

/-! ## The plain search -/

/-- The place that is looked at. -/
def middle (l r : Int) : Int := (l + r).tdiv 2

/-- The last entry of the type from `l` to `t`. -/
structure Nearest (stabs : Int → Option Stab) (type l t m : Int) (v : BitVec 32) : Prop where
  inside : l ≤ m ∧ m ≤ t
  entry : HasStab stabs type m v
  last : ∀ i w, m < i → i ≤ t → ¬ HasStab stabs type i w

/-- There is no entry of the type from `l` to `t`. -/
def NoneIn (stabs : Int → Option Stab) (type l t : Int) : Prop :=
  ∀ i w, l ≤ i → i ≤ t → ¬ HasStab stabs type i w

/-- Halving the range from `l` to `r`, a search for `a` meets an entry at `a`
first at place `m`, with the range cut down to `r'` at its right. -/
inductive Hits (stabs : Int → Option Stab) (type : Int) (a : BitVec 32) :
    Int → Int → Int → Int → Prop where
  | hit {l r m : Int} : l ≤ r → Nearest stabs type l (middle l r) m a →
      Hits stabs type a l r m r
  | nothing {l r m r' : Int} : l ≤ r → NoneIn stabs type l (middle l r) →
      Hits stabs type a (middle l r + 1) r m r' → Hits stabs type a l r m r'
  | low {l r m r' p : Int} {v : BitVec 32} : l ≤ r →
      Nearest stabs type l (middle l r) p v → v < a →
      Hits stabs type a (middle l r + 1) r m r' → Hits stabs type a l r m r'
  | high {l r m r' p : Int} {v : BitVec 32} : l ≤ r →
      Nearest stabs type l (middle l r) p v → a < v →
      Hits stabs type a l (p - 1) m r' → Hits stabs type a l r m r'

/-- The entries behind the exact match do not mislead the search: the address
is not the last one, and when the search for the next address meets an entry at
it, that one is at the last address and just behind an entry at the address. -/
def NotMisled (stabs : Int → Option Stab) (type left right : Int) (addr : BitVec 32) : Prop :=
  ∀ m r, Hits stabs type addr left right m r →
    addr ≠ BitVec.allOnes 32 ∧ ∀ m' r', Hits stabs type (addr + 1#32) m r m' r' →
      addr + 1#32 = BitVec.allOnes 32 ∧ HasStab stabs type (m' - 1) addr

section Search

variable {stabs : Int → Option Stab} {type left right l r t m i j : Int}
  {addr a v w : BitVec 32} {n : Nat} {s s' : Search}

theorem HasStab.unique (h : HasStab stabs type i v) (h' : HasStab stabs type i w) : v = w := by
  obtain ⟨e, he, -, rfl⟩ := h
  obtain ⟨e', he', -, rfl⟩ := h'
  rw [Option.some.inj (he.symm.trans he')]

theorem middle_bounds (h : 0 ≤ l) (hle : l ≤ r) : l ≤ middle l r ∧ middle l r ≤ r := by
  unfold middle
  rw [Int.tdiv_eq_ediv_of_nonneg (by omega)]
  omega

/-- Going back from a place finds the last entry of the type. -/
theorem scanBack_finds (hdef : ∀ i, l ≤ i → i < l + n → ∃ e, stabs i = some e) :
    ∃ m, scanBack stabs type l n = some m ∧
      ((m = l - 1 ∧ ∀ i w, l ≤ i → i < l + n → ¬ HasStab stabs type i w) ∨
        ∃ v, l ≤ m ∧ m < l + n ∧ HasStab stabs type m v ∧
          ∀ i w, m < i → i < l + n → ¬ HasStab stabs type i w) := by
  induction n with
  | zero => exact ⟨l - 1, rfl, Or.inl ⟨rfl, fun i w hi hi' => by omega⟩⟩
  | succ n ih =>
      obtain ⟨e, he⟩ := hdef (l + n) (by omega) (by omega)
      rw [scanBack, he]
      by_cases htype : (e.nType.toNat : Int) = type
      · refine ⟨l + n, by simp [htype], Or.inr ⟨e.nValue, by omega, by omega,
          ⟨e, he, htype, rfl⟩, fun i w hi hi' => by omega⟩⟩
      · obtain ⟨m, hm, hcases⟩ := ih (fun i hi hi' => hdef i hi (by omega))
        have hlast : ∀ w, ¬ HasStab stabs type (l + n) w := by
          rintro w ⟨e', he', htype', -⟩
          rw [← Option.some.inj (he.symm.trans he')] at htype'
          exact htype htype'
        have hmore : ∀ i w, i < l + (n + 1 : Nat) → (i < l + n → ¬ HasStab stabs type i w) →
            ¬ HasStab stabs type i w := by
          intro i w hi hno
          by_cases hin : i = l + n
          · rw [hin]
            exact hlast w
          · exact hno (by omega)
        refine ⟨m, by simp [htype, hm], ?_⟩
        rcases hcases with ⟨hm', hno⟩ | ⟨v, hlo, hhi, hstab, hno⟩
        · exact Or.inl ⟨hm', fun i w hi hi' => hmore i w hi' (hno i w hi)⟩
        · exact Or.inr ⟨v, hlo, by omega, hstab, fun i w hi hi' => hmore i w hi' (hno i w hi)⟩

/-- What one turn can do. -/
inductive Turned (stabs : Int → Option Stab) (type : Int) (s : Search) : Search → Prop where
  | nothing : NoneIn stabs type s.l (middle s.l s.r) →
      Turned stabs type s { s with l := middle s.l s.r + 1 }
  | low (m : Int) (v : BitVec 32) : Nearest stabs type s.l (middle s.l s.r) m v →
      v < s.addr → Turned stabs type s
        { s with anyMatches := true, regionLeft := m, l := middle s.l s.r + 1 }
  | high (m : Int) (v : BitVec 32) : Nearest stabs type s.l (middle s.l s.r) m v →
      s.addr < v → Turned stabs type s
        { s with anyMatches := true, regionRight := m - 1, r := m - 1 }
  | hit (m : Int) : Nearest stabs type s.l (middle s.l s.r) m s.addr →
      Turned stabs type s
        { s with anyMatches := true, regionLeft := m, l := m, addr := s.addr + 1#32 }

/-- The range that is searched lies in the range that is given. -/
def Within (left right : Int) (s : Search) : Prop := left ≤ s.l ∧ s.r ≤ right

theorem turn_turned (hr : StabRange stabs type left right) (hs : Within left right s)
    (hgo : s.Going) : ∃ s', s.turn stabs type = some s' ∧ Turned stabs type s s' := by
  have hnonneg := hr.nonneg
  obtain ⟨hlo, hhi⟩ := hs
  obtain ⟨hmlo, hmhi⟩ := middle_bounds (l := s.l) (r := s.r) (by omega) hgo
  have hcount : s.l + ((middle s.l s.r - s.l + 1).toNat : Int) = middle s.l s.r + 1 := by omega
  obtain ⟨m, hm, hcases⟩ := @scanBack_finds stabs type s.l (middle s.l s.r - s.l + 1).toNat
    (fun i hi hi' => hr.defined i (by omega) (by omega))
  rw [hcount] at hcases
  unfold Search.turn
  change ∃ s', (scanBack stabs type s.l (middle s.l s.r - s.l + 1).toNat >>= _) = some s' ∧ _
  rw [hm]
  rcases hcases with ⟨hnone, hno⟩ | ⟨v, hml, hmr, hstab, hno⟩
  · refine ⟨_, by simp [hnone, middle], .nothing (fun i w hi hi' => hno i w hi (by omega))⟩
  · have hnear : Nearest stabs type s.l (middle s.l s.r) m v :=
      ⟨⟨hml, by omega⟩, hstab, fun i w hi hi' => hno i w hi (by omega)⟩
    obtain ⟨e, he, -, rfl⟩ := hstab
    have hnot : ¬ m < s.l := by omega
    by_cases hlt : e.nValue < s.addr
    · exact ⟨_, by simp [hnot, he, hlt, middle], .low m _ hnear hlt⟩
    · by_cases hgt : s.addr < e.nValue
      · exact ⟨_, by simp [hnot, he, hlt, hgt], .high m _ hnear hgt⟩
      · have heq : e.nValue = s.addr := by
          rw [BitVec.lt_def] at hlt hgt
          exact BitVec.eq_of_toNat_eq (by omega)
        rw [heq] at hnear
        exact ⟨_, by simp [hnot, he, hlt, hgt], .hit m hnear⟩

theorem Turned.within (h : Turned stabs type s s') (hs : Within left right s) (hnonneg : 0 ≤ left)
    (hgo : s.Going) : Within left right s' := by
  obtain ⟨hlo, hhi⟩ := hs
  obtain ⟨hmlo, hmhi⟩ := middle_bounds (l := s.l) (r := s.r) (by omega) hgo
  cases h with
  | nothing _ => exact ⟨by simp only; omega, hhi⟩
  | low m v hnear _ => exact ⟨by simp only; omega, hhi⟩
  | high m v hnear _ =>
      have := hnear.inside
      exact ⟨hlo, by simp only; omega⟩
  | hit m hnear =>
      have := hnear.inside
      exact ⟨by simp only; omega, hhi⟩

open Classical in
/-- How many turns are left at most: two for each place of the range, and one
more unless the place at the left has just been an exact match. -/
noncomputable def turnsLeft (stabs : Int → Option Stab) (type : Int) (s : Search) : Nat :=
  2 * (s.r - s.l + 1).toNat + if HasStab stabs type s.l (s.addr - 1#32) then 0 else 1

theorem turnsLeft_le : turnsLeft stabs type s ≤ 2 * (s.r - s.l + 1).toNat + 1 := by
  unfold turnsLeft
  split
  · omega
  · omega

theorem le_turnsLeft : 2 * (s.r - s.l + 1).toNat ≤ turnsLeft stabs type s := by
  unfold turnsLeft
  omega

theorem Turned.decreases (h : Turned stabs type s s') (hs : 0 ≤ s.l) (hgo : s.Going) :
    turnsLeft stabs type s' < turnsLeft stabs type s := by
  have hgo' : s.l ≤ s.r := hgo
  obtain ⟨hmlo, hmhi⟩ := middle_bounds hs hgo'
  -- a turn that leaves a smaller range
  have hsmaller : ∀ s' : Search, (s'.r - s'.l + 1).toNat < (s.r - s.l + 1).toNat →
      turnsLeft stabs type s' < turnsLeft stabs type s := by
    intro s' hlt
    refine Nat.lt_of_le_of_lt turnsLeft_le (Nat.lt_of_lt_of_le ?_ le_turnsLeft)
    omega
  cases h with
  | nothing _ => exact hsmaller _ (by simp only; omega)
  | low m v hnear _ => exact hsmaller _ (by simp only; omega)
  | high m v hnear _ =>
      have := hnear.inside
      exact hsmaller _ (by simp only; omega)
  | hit m hnear =>
      have hinside := hnear.inside
      by_cases hm : m = s.l
      · have hnow : HasStab stabs type m (s.addr + 1#32 - 1#32) := by
          rw [BitVec.add_sub_cancel]
          exact hnear.entry
        have hbefore : ¬ HasStab stabs type s.l (s.addr - 1#32) := by
          intro hstab
          rw [← hm] at hstab
          have heq := hnear.entry.unique hstab
          bv_omega
        unfold turnsLeft
        rw [if_neg hbefore]
        simp only
        rw [if_pos hnow, hm]
        omega
      · exact hsmaller _ (by simp only; omega)

/-- The loop ends, with the number of turns that the range allows. -/
theorem search_ends (hr : StabRange stabs type left right) (hs : Within left right s) {fuel : Nat}
    (hfuel : 2 * (s.r - s.l + 1).toNat + 1 < fuel) :
    ∃ s', whileLoop Search.Going (Search.turn stabs type) fuel s = some s' ∧
      Turns Search.Going (Search.turn stabs type) s s' ∧ ¬ s'.Going := by
  refine whileLoop_ends (turnsLeft stabs type) (fun a ha hgo => ?_) hs
    (Nat.lt_of_le_of_lt turnsLeft_le hfuel)
  obtain ⟨b, hb, hturned⟩ := turn_turned hr ha hgo
  have hnonneg := hr.nonneg
  exact ⟨b, hb, hturned.within ha hnonneg hgo, hturned.decreases (by have := ha.1; omega) hgo⟩

/-! ## Exact matches of the plain search -/

theorem Nearest.unique {p : Int} (h : Nearest stabs type l t m v)
    (h' : Nearest stabs type l t p w) : m = p ∧ v = w := by
  have hmp : m = p := by
    by_contra hne
    rcases Int.lt_or_gt_of_ne hne with hlt | hgt
    · exact h.last p w hlt h'.inside.2 h'.entry
    · exact h'.last m v hgt h.inside.2 h.entry
  subst hmp
  exact ⟨rfl, h.entry.unique h'.entry⟩

theorem NoneIn.not_nearest (h : NoneIn stabs type l t) : ¬ Nearest stabs type l t m v :=
  fun hnear => h m v hnear.inside.1 hnear.inside.2 hnear.entry

section Exact

variable {r' p : Int}

theorem hits_nothing (hle : l ≤ r) (hnone : NoneIn stabs type l (middle l r)) :
    Hits stabs type a l r m r' ↔ Hits stabs type a (middle l r + 1) r m r' := by
  refine ⟨fun h => ?_, .nothing hle hnone⟩
  cases h with
  | hit _ hnear => exact (hnone.not_nearest hnear).elim
  | nothing _ _ h => exact h
  | low _ hnear _ _ => exact (hnone.not_nearest hnear).elim
  | high _ hnear _ _ => exact (hnone.not_nearest hnear).elim

theorem hits_low (hle : l ≤ r) (hnear : Nearest stabs type l (middle l r) p v) (hlt : v < a) :
    Hits stabs type a l r m r' ↔ Hits stabs type a (middle l r + 1) r m r' := by
  refine ⟨fun h => ?_, .low hle hnear hlt⟩
  cases h with
  | hit _ hnear' =>
      obtain ⟨-, rfl⟩ := hnear.unique hnear'
      exact absurd hlt (BitVec.lt_irrefl v)
  | nothing _ hnone _ => exact (hnone.not_nearest hnear).elim
  | low _ _ _ h => exact h
  | high _ hnear' hgt _ =>
      obtain ⟨-, rfl⟩ := hnear.unique hnear'
      exact absurd hgt (BitVec.lt_asymm hlt)

theorem hits_high (hle : l ≤ r) (hnear : Nearest stabs type l (middle l r) p v) (hgt : a < v) :
    Hits stabs type a l r m r' ↔ Hits stabs type a l (p - 1) m r' := by
  refine ⟨fun h => ?_, .high hle hnear hgt⟩
  cases h with
  | hit _ hnear' =>
      obtain ⟨-, rfl⟩ := hnear.unique hnear'
      exact absurd hgt (BitVec.lt_irrefl v)
  | nothing _ hnone _ => exact (hnone.not_nearest hnear).elim
  | low _ hnear' hlt _ =>
      obtain ⟨-, rfl⟩ := hnear.unique hnear'
      exact absurd hgt (BitVec.lt_asymm hlt)
  | high _ hnear' _ h =>
      obtain ⟨rfl, -⟩ := hnear.unique hnear'
      exact h

theorem hits_hit (hle : l ≤ r) (hnear : Nearest stabs type l (middle l r) p a) :
    Hits stabs type a l r m r' ↔ m = p ∧ r' = r := by
  constructor
  · intro h
    cases h with
    | hit _ hnear' => exact ⟨(hnear'.unique hnear).1, rfl⟩
    | nothing _ hnone _ => exact (hnone.not_nearest hnear).elim
    | low _ hnear' hlt _ =>
        obtain ⟨-, rfl⟩ := hnear.unique hnear'
        exact absurd hlt (BitVec.lt_irrefl _)
    | high _ hnear' hgt _ =>
        obtain ⟨-, rfl⟩ := hnear.unique hnear'
        exact absurd hgt (BitVec.lt_irrefl _)
  · rintro ⟨rfl, rfl⟩
    exact .hit hle hnear

theorem not_hits (hgt : ¬ l ≤ r) : ¬ Hits stabs type a l r m r' := by
  intro h
  cases h with
  | hit hle _ => exact hgt hle
  | nothing hle _ _ => exact hgt hle
  | low hle _ _ _ => exact hgt hle
  | high hle _ _ _ => exact hgt hle

/-- The first exact match is determined. -/
theorem Hits.unique {m' r₁ : Int} (h : Hits stabs type a l r m r')
    (h' : Hits stabs type a l r m' r₁) : m = m' ∧ r' = r₁ := by
  induction h with
  | hit hle hnear =>
      obtain ⟨rfl, rfl⟩ := (hits_hit hle hnear).mp h'
      exact ⟨rfl, rfl⟩
  | nothing hle hnone _ ih => exact ih ((hits_nothing hle hnone).mp h')
  | low hle hnear hlt _ ih => exact ih ((hits_low hle hnear hlt).mp h')
  | high hle hnear hgt _ ih => exact ih ((hits_high hle hnear hgt).mp h')

end Exact

/-! ## One phase of the search -/

/-- What holds while the search is for `a`, which is the address that was given or the
next one. -/
structure SearchPhase (stabs : Int → Option Stab) (type left right : Int) (addr a : BitVec 32)
    (s : Search) : Prop where
  within : Within left right s
  target : s.addr = a
  rightEnd : s.regionRight = s.r
  next : s.r = right ∨ s.r < right ∧ ∃ v, HasStab stabs type (s.r + 1) v
  before : ∀ i v, left ≤ i → i < s.l → HasStab stabs type i v → v ≤ addr
  behind : ∀ i v, s.r < i → i ≤ right → HasStab stabs type i v → addr < v
  leftEnd : (s.regionLeft = left ∧ ∀ i v, left ≤ i → i < s.l → ¬ HasStab stabs type i v) ∨
    (left ≤ s.regionLeft ∧ s.regionLeft ≤ right ∧
      (∃ v, HasStab stabs type s.regionLeft v ∧ v ≤ addr) ∧
      ∀ i v, s.regionLeft < i → i < s.l → ¬ HasStab stabs type i v)
  seen : s.anyMatches = false → s.regionLeft = left ∧ s.r = right ∧
    ∀ i v, left ≤ i → i < s.l → ¬ HasStab stabs type i v
  unseen : s.anyMatches = true → ∃ i v, left ≤ i ∧ i ≤ right ∧ HasStab stabs type i v

/-- A turn of a phase goes on with the phase or is an exact match. -/
theorem SearchPhase.turn (hr : StabRange stabs type left right)
    (h : SearchPhase stabs type left right addr a s)
    (hlow : ∀ v, v < a → v ≤ addr) (hhigh : ∀ v, a < v → addr < v)
    (hgo : s.Going) (ht : Turned stabs type s s') :
    (SearchPhase stabs type left right addr a s' ∧
      ∀ m r', Hits stabs type a s.l s.r m r' ↔ Hits stabs type a s'.l s'.r m r') ∨
    ∃ m, Nearest stabs type s.l (middle s.l s.r) m a ∧
      s' = { s with anyMatches := true, regionLeft := m, l := m, addr := a + 1#32 } := by
  have hnonneg := hr.nonneg
  have hwithin := ht.within h.within hnonneg hgo
  have hlo := h.within.1
  have hhi := h.within.2
  obtain ⟨hmlo, hmhi⟩ := middle_bounds (by omega) hgo
  have hgo' : s.l ≤ s.r := hgo
  cases ht with
  | nothing hnone =>
      have hno : ∀ i v, (i < s.l → ¬ HasStab stabs type i v) → i < middle s.l s.r + 1 →
          ¬ HasStab stabs type i v := by
        intro i v hbefore hi
        by_cases hil : i < s.l
        · exact hbefore hil
        · exact hnone i v (by omega) (by omega)
      refine Or.inl ⟨⟨hwithin, h.target, h.rightEnd, h.next, fun i v hi hi' hstab => ?_,
        h.behind, ?_, fun hany => ?_, h.unseen⟩, fun m r' => hits_nothing hgo' hnone⟩
      · by_cases hil : i < s.l
        · exact h.before i v hi hil hstab
        · exact absurd hstab (hnone i v (by omega) (by simp only at hi'; omega))
      · rcases h.leftEnd with ⟨hleft, hbefore⟩ | ⟨hle, hle', hstab, hbetween⟩
        · exact Or.inl ⟨hleft, fun i v hi hi' => hno i v (hbefore i v hi) hi'⟩
        · exact Or.inr ⟨hle, hle', hstab,
            fun i v hi hi' => hno i v (hbetween i v hi) hi'⟩
      · obtain ⟨hleft, hright, hbefore⟩ := h.seen hany
        exact ⟨hleft, hright, fun i v hi hi' => hno i v (hbefore i v hi) hi'⟩
  | low m v hnear hlt =>
      rw [h.target] at hlt
      have hinside := hnear.inside
      refine Or.inl ⟨⟨hwithin, h.target, h.rightEnd, h.next, fun i w hi hi' hstab => ?_,
        h.behind, Or.inr ⟨by simp only; omega, by simp only; omega, ⟨v, hnear.entry, hlow v hlt⟩,
          fun i w hi hi' => hnear.last i w hi (by simp only at hi'; omega)⟩,
        fun hany => by simp at hany, fun _ => ⟨m, v, by omega, by omega, hnear.entry⟩⟩,
        fun p r' => hits_low hgo' hnear hlt⟩
      by_cases him : i ≤ m
      · exact BitVec.le_trans (hr.sorted i m w v hi him (by omega) hstab hnear.entry) (hlow v hlt)
      · exact absurd hstab (hnear.last i w (by omega) (by simp only at hi'; omega))
  | high m v hnear hlt =>
      rw [h.target] at hlt
      have hinside := hnear.inside
      have hsucc : m - 1 + 1 = m := by omega
      refine Or.inl ⟨⟨hwithin, h.target, rfl, Or.inr ⟨by simp only; omega, v, ?_⟩, h.before,
        fun i w hi hi' hstab => ?_, h.leftEnd, fun hany => by simp at hany,
        fun _ => ⟨m, v, by omega, by omega, hnear.entry⟩⟩,
        fun p r' => hits_high hgo' hnear hlt⟩
      · simp only
        rw [hsucc]
        exact hnear.entry
      · have hle : v ≤ w := hr.sorted m i v w (by omega) (by simp only at hi; omega) hi'
          hnear.entry hstab
        have hbig := BitVec.lt_def.mp (hhigh v hlt)
        rw [BitVec.le_def] at hle
        rw [BitVec.lt_def]
        omega
  | hit m hnear =>
      rw [h.target] at hnear ⊢
      exact Or.inr ⟨m, hnear, rfl⟩

/-- The state behind an exact match at `m`. -/
def afterHit (m r : Int) (a : BitVec 32) : Search := ⟨m, r, m, r, true, a + 1#32⟩

/-- What a phase has found out when it ends with an exact match. -/
structure Matched (stabs : Int → Option Stab) (type left right : Int) (addr a : BitVec 32)
    (m r : Int) : Prop where
  inside : left ≤ m ∧ m ≤ r ∧ r ≤ right
  entry : HasStab stabs type m a
  next : r = right ∨ r < right ∧ ∃ v, HasStab stabs type (r + 1) v
  behind : ∀ i v, r < i → i ≤ right → HasStab stabs type i v → addr < v

/-- A phase ends behind the range, or with an exact match. -/
theorem SearchPhase.run (hr : StabRange stabs type left right)
    (hlow : ∀ v, v < a → v ≤ addr) (hhigh : ∀ v, a < v → addr < v)
    (h : SearchPhase stabs type left right addr a s) :
    (∃ s', Turns Search.Going (Search.turn stabs type) s s' ∧ ¬ s'.Going ∧
      SearchPhase stabs type left right addr a s' ∧ ∀ m r', ¬ Hits stabs type a s.l s.r m r') ∨
    ∃ m r', Hits stabs type a s.l s.r m r' ∧
      Turns Search.Going (Search.turn stabs type) s (afterHit m r' a) ∧
      Matched stabs type left right addr a m r' := by
  induction hn : turnsLeft stabs type s using Nat.strong_induction_on generalizing s with
  | _ n ih =>
      by_cases hgo : s.Going
      · have hnonneg := hr.nonneg
        have hlo := h.within.1
        obtain ⟨s', hturn, hturned⟩ := turn_turned hr h.within hgo
        rcases h.turn hr hlow hhigh hgo hturned with ⟨h', hiff⟩ | ⟨m, hnear, rfl⟩
        · have hless := hturned.decreases (by omega) hgo
          rw [hn] at hless
          rcases ih _ hless h' rfl with ⟨t, hturns, hend, ht, hno⟩ | ⟨m, r', hhits, hturns, hm⟩
          · exact Or.inl ⟨t, hturns.head hgo hturn, hend, ht, fun m r' hhits =>
              hno m r' ((hiff m r').mp hhits)⟩
          · exact Or.inr ⟨m, r', (hiff m r').mpr hhits, hturns.head hgo hturn, hm⟩
        · have hinside := hnear.inside
          obtain ⟨hmlo, hmhi⟩ := middle_bounds (by omega) hgo
          refine Or.inr ⟨m, s.r, .hit hgo hnear, ?_, ⟨by omega, by omega, h.within.2⟩,
            hnear.entry, h.next, h.behind⟩
          have hafter : (afterHit m s.r a : Search) = { s with
              anyMatches := true, regionLeft := m, l := m, addr := a + 1#32 } := by
            rw [afterHit, ← h.rightEnd]
          rw [hafter]
          exact (Turns.refl _).head hgo hturn
      · exact Or.inl ⟨s, .refl s, hgo, h, fun m r' => not_hits hgo⟩

/-! ## How the search ends -/

/-- The place that is taken behind the loop is an entry or the left end itself. -/
theorem finish_scan (hr : StabRange stabs type left right) (hL : left ≤ s.regionLeft)
    (hR : s.regionRight ≤ right) (hany : s.anyMatches = true)
    (hlt : s.regionLeft < s.regionRight) :
    ∃ m, s.finish stabs type = some (m, s.regionRight) ∧ s.regionLeft ≤ m ∧ m ≤ s.regionRight ∧
      ((∀ i w, s.regionLeft < i → i ≤ s.regionRight → ¬ HasStab stabs type i w) →
        m = s.regionLeft) := by
  have hcount : s.regionLeft + 1 + ((s.regionRight - s.regionLeft).toNat : Int) =
      s.regionRight + 1 := by omega
  obtain ⟨m, hm, hcases⟩ := @scanBack_finds stabs type (s.regionLeft + 1)
    (s.regionRight - s.regionLeft).toNat (fun i hi hi' => hr.defined i (by omega) (by omega))
  rw [hcount] at hcases
  have hnot : ¬ s.regionRight ≤ s.regionLeft := by omega
  refine ⟨m, by simp [Search.finish, hany, hnot, hm], ?_⟩
  rcases hcases with ⟨hnone, -⟩ | ⟨v, hlo, hhi, hstab, -⟩
  · exact ⟨by omega, by omega, fun _ => by omega⟩
  · exact ⟨by omega, by omega, fun hno => absurd hstab (hno m v (by omega) (by omega))⟩

/-- There is an entry of the type in the range. -/
def SomeStab (stabs : Int → Option Stab) (type left right : Int) : Prop :=
  ∃ i v, left ≤ i ∧ i ≤ right ∧ HasStab stabs type i v

theorem SomeBelow.some (h : SomeBelow stabs type left right addr) :
    SomeStab stabs type left right := by
  obtain ⟨i, v, hlo, hhi, hstab, -⟩ := h
  exact ⟨i, v, hlo, hhi, hstab⟩

/-- A phase that ends behind the range finds the region, and without one it
says so only when there is no entry at all. -/
theorem SearchPhase.finish (hr : StabRange stabs type left right)
    (h : SearchPhase stabs type left right addr a s) (hend : ¬ s.Going) :
    ∃ l' r', s.finish stabs type = some (l', r') ∧
      (Brackets stabs type left right addr l' r' ↔
        ¬ SomeStab stabs type left right ∨ SomeBelow stabs type left right addr) := by
  have hpast : s.r < s.l := by
    unfold Search.Going at hend
    omega
  have hright := h.within.2
  have hR := h.rightEnd
  by_cases hany : s.anyMatches = false
  · obtain ⟨hL, hr', hno⟩ := h.seen hany
    have hnone : ¬ SomeStab stabs type left right := by
      rintro ⟨i, v, hlo, hhi, hstab⟩
      exact hno i v hlo (by omega) hstab
    refine ⟨s.regionLeft, s.regionLeft - 1, by simp [Search.finish, hany], ?_⟩
    exact ⟨fun _ => Or.inl hnone, fun _ => ⟨fun hbelow => (hnone hbelow.some).elim,
      fun _ => by omega⟩⟩
  · have hany' : s.anyMatches = true := by simpa using hany
    obtain ⟨i₀, v₀, hlo₀, hhi₀, hstab₀⟩ := h.unseen hany'
    have hsome : SomeStab stabs type left right := ⟨i₀, v₀, hlo₀, hhi₀, hstab₀⟩
    rcases h.leftEnd with ⟨hL, hno⟩ | ⟨hL, hL', ⟨v, hstab, hv⟩, hno⟩
    · have hnone : ¬ SomeBelow stabs type left right addr := by
        rintro ⟨i, v, hlo, hhi, hstab, hv⟩
        by_cases hi : i < s.l
        · exact hno i v hlo hi hstab
        · have hlt := h.behind i v (by omega) hhi hstab
          rw [BitVec.lt_def] at hlt
          rw [BitVec.le_def] at hv
          omega
      have hiff : ∀ l' r', l' ≤ r' → (Brackets stabs type left right addr l' r' ↔
          ¬ SomeStab stabs type left right ∨ SomeBelow stabs type left right addr) := by
        intro l' r' hle
        refine ⟨fun hb => ?_, fun hb => (hb.elim (fun h => h hsome) hnone).elim⟩
        have := hb.notFound hnone
        omega
      by_cases hlt : s.regionLeft < s.regionRight
      · obtain ⟨m, hm, -, hmR, -⟩ := finish_scan hr (by omega) (by omega) hany' hlt
        exact ⟨m, _, hm, hiff _ _ hmR⟩
      · exact ⟨s.regionRight, s.regionRight, by simp [Search.finish, hany', Int.not_lt.mp hlt],
          hiff _ _ le_rfl⟩
    · have hbelow : SomeBelow stabs type left right addr :=
        ⟨s.regionLeft, v, hL, hL', hstab, hv⟩
      have hLr : s.regionLeft ≤ s.regionRight := by
        by_contra hgt
        have hlt := h.behind s.regionLeft v (by omega) hL' hstab
        rw [BitVec.lt_def] at hlt
        rw [BitVec.le_def] at hv
        omega
      have hregion : Region stabs type left right addr s.regionLeft s.regionRight := by
        refine ⟨⟨hL, hL'⟩, ⟨v, hstab, hv⟩, fun i w hi hi' hw => ?_, fun i w hi hi' hw => ?_,
          hLr, by rw [hR]; exact h.next⟩
        · by_cases hil : i < s.l
          · exact absurd hw (hno i w hi hil)
          · exact h.behind i w (by omega) hi' hw
        · by_contra hle
          exact hno i w hi (by omega) hw
      have hiff : Brackets stabs type left right addr s.regionLeft s.regionRight ↔
          ¬ SomeStab stabs type left right ∨ SomeBelow stabs type left right addr :=
        ⟨fun _ => Or.inr hbelow, fun _ => ⟨fun _ => hregion, fun hn => (hn hbelow).elim⟩⟩
      by_cases hlt : s.regionLeft < s.regionRight
      · obtain ⟨m, hm, -, -, hmL⟩ := finish_scan hr hL (by omega) hany' hlt
        obtain rfl := hmL (fun i w hi hi' => hno i w hi (by omega))
        exact ⟨_, _, hm, hiff⟩
      · have heq : s.regionRight = s.regionLeft := by omega
        refine ⟨s.regionRight, s.regionRight, by simp [Search.finish, hany', heq], ?_⟩
        rw [← heq] at hiff
        exact hiff

/-! ## Behind an exact match -/

theorem lt_add_one (ha : a ≠ BitVec.allOnes 32) : a < a + 1#32 := by
  have hne : a.toNat ≠ 2 ^ 32 - 1 := by
    intro heq
    apply ha
    apply BitVec.eq_of_toNat_eq
    rw [heq, BitVec.toNat_allOnes]
  bv_omega

/-- What holds while the address has wrapped around to zero behind the match at `m`. -/
structure Wrapped (right m : Int) (s : Search) : Prop where
  leftPlace : s.l = m
  rightPlace : m - 1 ≤ s.r ∧ s.r ≤ right
  rightEnd : s.regionRight = s.r
  leftEnd : s.regionLeft = m
  any : s.anyMatches = true
  address : s.addr = 0#32

theorem Wrapped.turn {p : Int} (hr : StabRange stabs type left right)
    (hm : HasStab stabs type p (BitVec.allOnes 32)) (hp : left ≤ p) (h : Wrapped right p s)
    (hgo : s.Going) (ht : Turned stabs type s s') : Wrapped right p s' := by
  have hnonneg := hr.nonneg
  have hl := h.leftPlace
  have hle := h.rightPlace
  obtain ⟨hmlo, hmhi⟩ := middle_bounds (by omega) hgo
  -- the entries from the match on are all at the last address
  have hlast : ∀ i v, s.l ≤ i → i ≤ middle s.l s.r → HasStab stabs type i v →
      v = BitVec.allOnes 32 := by
    intro i v hi hi' hstab
    have hle' := hr.sorted p i _ v hp (by omega) (by omega) hm hstab
    rw [BitVec.le_def, BitVec.toNat_allOnes] at hle'
    apply BitVec.eq_of_toNat_eq
    rw [BitVec.toNat_allOnes]
    omega
  cases ht with
  | nothing hnone =>
      rw [hl] at hnone hmlo
      exact absurd hm (hnone p _ le_rfl hmlo)
  | low i v hnear hlt =>
      rw [h.address] at hlt
      exact absurd hlt (by simp)
  | high i v hnear hlt =>
      have hinside := hnear.inside
      exact ⟨hl, ⟨by simp only; omega, by simp only; omega⟩, rfl, h.leftEnd, rfl, h.address⟩
  | hit i hnear =>
      have hinside := hnear.inside
      have heq := hlast i s.addr (by omega) (by omega) hnear.entry
      rw [h.address] at heq
      exact absurd heq (by decide)

/-- What holds behind a match at `m` of an address behind the one that is looked
for: the search never comes back before `m`. -/
structure Beyond (stabs : Int → Option Stab) (type left right m : Int) (v : BitVec 32)
    (s : Search) : Prop where
  within : Within left right s
  leftEnd : m ≤ s.regionLeft
  rightEnd : m ≤ s.regionRight ∧ s.regionRight ≤ right
  past : m < s.l ∨ s.l = m ∧ v < s.addr

theorem Beyond.turn {p : Int} (hr : StabRange stabs type left right)
    (hp : HasStab stabs type p v) (h : Beyond stabs type left right p v s) (hgo : s.Going)
    (ht : Turned stabs type s s') : Beyond stabs type left right p v s' := by
  have hnonneg := hr.nonneg
  have hlo := h.within.1
  have hpast := h.past
  have hr₁ := h.within.2
  obtain ⟨hmlo, hmhi⟩ := middle_bounds (by omega) hgo
  have hwithin := ht.within h.within hnonneg hgo
  cases ht with
  | nothing hnone => exact ⟨hwithin, h.leftEnd, h.rightEnd, Or.inl (by simp only; omega)⟩
  | low i w hnear hlt =>
      have hinside := hnear.inside
      exact ⟨hwithin, by simp only; omega, h.rightEnd, Or.inl (by simp only; omega)⟩
  | high i w hnear hlt =>
      have hinside := hnear.inside
      have hlater : p < i := by
        rcases hpast with hlt' | ⟨heq, hv⟩
        · omega
        · by_contra hle
          obtain rfl : i = p := by omega
          obtain rfl := hp.unique hnear.entry
          exact BitVec.lt_asymm hlt hv
      exact ⟨hwithin, h.leftEnd, ⟨by simp only; omega, by simp only; omega⟩, hpast⟩
  | hit i hnear =>
      have hinside := hnear.inside
      have hlater : p < i := by
        rcases hpast with hlt' | ⟨heq, hv⟩
        · omega
        · by_contra hle
          obtain rfl : i = p := by omega
          rw [hp.unique hnear.entry] at hv
          exact BitVec.lt_irrefl _ hv
      exact ⟨hwithin, by simp only; omega, h.rightEnd, Or.inl hlater⟩

theorem Beyond.finish {p : Int} (hr : StabRange stabs type left right) (hp : left ≤ p)
    (h : Beyond stabs type left right p v s) :
    ∃ l' r', s.finish stabs type = some (l', r') ∧ p ≤ l' := by
  have hL := h.leftEnd
  have hR := h.rightEnd
  by_cases hany : s.anyMatches = false
  · exact ⟨s.regionLeft, s.regionLeft - 1, by simp [Search.finish, hany], hL⟩
  · have hany' : s.anyMatches = true := by simpa using hany
    by_cases hlt : s.regionLeft < s.regionRight
    · obtain ⟨m, hm, hmL, -, -⟩ := finish_scan hr (by omega) hR.2 hany' hlt
      exact ⟨m, _, hm, by omega⟩
    · exact ⟨s.regionRight, s.regionRight,
        by simp [Search.finish, hany', Int.not_lt.mp hlt], hR.1⟩

/-! ## The runs behind an exact match -/

variable {fuel : Nat} {p r' : Int}

/-- What holds of the states that the loop goes through holds of the state that it
ends in. -/
theorem turns_keep (hr : StabRange stabs type left right) {P : Search → Prop}
    (hwithin : ∀ a, P a → Within left right a)
    (hstep : ∀ a b, P a → a.Going → Turned stabs type a b → P b)
    (h : Turns Search.Going (Search.turn stabs type) s s') (hs : P s) : P s' := by
  refine h.keeps (fun a b ha hgo hturn => ?_) hs
  obtain ⟨b', hb', hturned⟩ := turn_turned hr (hwithin a ha) hgo
  obtain rfl := Option.some.inj (hturn.symm.trans hb')
  exact hstep a b ha hgo hturned

/-- Behind a match at the last address the search ends just before the match. -/
theorem afterHit_last (hr : StabRange stabs type left right)
    (hp : HasStab stabs type p (BitVec.allOnes 32)) (hin : left ≤ p ∧ p ≤ r' ∧ r' ≤ right)
    (h : Turns Search.Going (Search.turn stabs type) (afterHit p r' (BitVec.allOnes 32)) s)
    (hend : ¬ s.Going) : s.finish stabs type = some (p - 1, p - 1) := by
  have hstart : Wrapped right p (afterHit p r' (BitVec.allOnes 32)) :=
    ⟨rfl, ⟨by simp only [afterHit]; omega, hin.2.2⟩, rfl, rfl, rfl, by simp [afterHit]⟩
  have hw : Wrapped right p s := turns_keep hr
    (fun a ha => ⟨by rw [ha.leftPlace]; exact hin.1, ha.rightPlace.2⟩)
    (fun a b ha hgo ht => ha.turn hr hp hin.1 hgo ht) h hstart
  have hle := hw.rightPlace
  have hl := hw.leftPlace
  have hR : s.regionRight = p - 1 := by
    unfold Search.Going at hend
    rw [hw.rightEnd]
    omega
  simp [Search.finish, hw.any, hR, hw.leftEnd]

/-- Behind a match of an address that is not the last one the search ends at the
match or behind it. -/
theorem afterHit_beyond (hr : StabRange stabs type left right)
    (hp : HasStab stabs type p a) (hin : left ≤ p ∧ p ≤ r' ∧ r' ≤ right)
    (ha : a ≠ BitVec.allOnes 32)
    (h : Turns Search.Going (Search.turn stabs type) (afterHit p r' a) s) :
    ∃ l₁ r₁, s.finish stabs type = some (l₁, r₁) ∧ p ≤ l₁ := by
  have hstart : Beyond stabs type left right p a (afterHit p r' a) :=
    ⟨⟨hin.1, hin.2.2⟩, le_rfl, hin.2, Or.inr ⟨rfl, lt_add_one ha⟩⟩
  have hb : Beyond stabs type left right p a s := turns_keep hr (fun a ha => ha.within)
    (fun b c hb hgo ht => hb.turn hr hp hgo ht) h hstart
  exact hb.finish hr hin.1

/-- The search for the next address begins a phase. -/
theorem Matched.phase (hr : StabRange stabs type left right)
    (h : Matched stabs type left right addr addr p r') :
    SearchPhase stabs type left right addr (addr + 1#32) (afterHit p r' addr) := by
  obtain ⟨hlo, hle, hhi⟩ := h.inside
  refine ⟨⟨hlo, hhi⟩, rfl, rfl, h.next, fun i v hi hi' hstab => ?_, h.behind,
    Or.inr ⟨hlo, by simp only [afterHit]; omega, ⟨addr, h.entry, BitVec.le_refl addr⟩,
      fun i v hi hi' => by simp only [afterHit] at hi hi'; omega⟩,
    fun hany => by simp [afterHit] at hany, fun _ => ⟨p, addr, hlo, by omega, h.entry⟩⟩
  simp only [afterHit] at hi'
  exact hr.sorted i p v addr hi (by omega) (by omega) hstab h.entry

/-- Behind an exact match the region comes out right when the search for the next
address does not meet an entry at it, or one at the last address just behind an
entry at the address. -/
theorem Matched.finish (hr : StabRange stabs type left right)
    (h : Matched stabs type left right addr addr p r') (haddr : addr ≠ BitVec.allOnes 32)
    (hturns : Turns Search.Going (Search.turn stabs type) (afterHit p r' addr) s)
    (hend : ¬ s.Going) :
    ∃ l₁ r₁, s.finish stabs type = some (l₁, r₁) ∧
      (Brackets stabs type left right addr l₁ r₁ ↔
        ∀ m' r₂, Hits stabs type (addr + 1#32) p r' m' r₂ →
          addr + 1#32 = BitVec.allOnes 32 ∧ HasStab stabs type (m' - 1) addr) := by
  obtain ⟨hlo, hle, hhi⟩ := h.inside
  have hnext : addr < addr + 1#32 := lt_add_one haddr
  have hbelow : SomeBelow stabs type left right addr :=
    ⟨p, addr, hlo, by omega, h.entry, BitVec.le_refl addr⟩
  rcases (h.phase hr).run hr (fun v hv => by bv_omega) (fun v hv => BitVec.lt_trans hnext hv) with
    ⟨t, ht, htend, hphase, hno⟩ | ⟨m', r₂, hhits, ht, hm'⟩
  · obtain rfl := ht.unique hturns htend hend
    obtain ⟨l₁, r₁, hfinish, hiff⟩ := hphase.finish hr htend
    refine ⟨l₁, r₁, hfinish, ?_⟩
    rw [hiff]
    exact ⟨fun _ m' r₂ hhits => (hno m' r₂ hhits).elim, fun _ => Or.inr hbelow⟩
  · have hrest := ht.rest hturns hend
    obtain ⟨hlo', hle', hhi'⟩ := hm'.inside
    have hlast : addr + 1#32 = BitVec.allOnes 32 ∧ HasStab stabs type (m' - 1) addr ↔
        ∀ m₁ r₁, Hits stabs type (addr + 1#32) p r' m₁ r₁ →
          addr + 1#32 = BitVec.allOnes 32 ∧ HasStab stabs type (m₁ - 1) addr := by
      constructor
      · intro hgood m₁ r₁ hhits'
        obtain ⟨rfl, -⟩ := hhits.unique hhits'
        exact hgood
      · exact fun hall => hall m' r₂ hhits
    rw [← hlast]
    -- the match lies behind the one for the address
    have hlater : p < m' := by
      by_contra hge
      have hsorted := hr.sorted m' p _ _ hlo' (by omega) (by omega) hm'.entry h.entry
      exact BitVec.not_le.mpr hnext hsorted
    by_cases hmax : addr + 1#32 = BitVec.allOnes 32
    · have hentry := hm'.entry
      rw [hmax] at hrest hentry
      refine ⟨m' - 1, m' - 1, afterHit_last hr hentry ⟨hlo', hle', hhi'⟩ hrest hend, ?_⟩
      rw [hmax] at hnext
      constructor
      · intro hb
        obtain ⟨v, hstab, hv⟩ := (hb.found hbelow).contains
        have hge := hr.sorted p (m' - 1) addr v hlo (by omega) (by omega) h.entry hstab
        obtain rfl : v = addr := BitVec.eq_of_toNat_eq (by
          rw [BitVec.le_def] at hv hge
          omega)
        exact ⟨hmax, hstab⟩
      · rintro ⟨-, hstab⟩
        have hsucc : m' - 1 + 1 = m' := by omega
        refine ⟨fun _ => ⟨⟨by omega, by omega⟩, ⟨addr, hstab, BitVec.le_refl addr⟩,
          fun i v hi hi' hv => ?_, fun i v hi _ _ => hi, le_rfl,
          Or.inr ⟨by omega, BitVec.allOnes 32, ?_⟩⟩,
          fun hno => (hno hbelow).elim⟩
        · have hge := hr.sorted m' i _ v hlo' (by omega) hi' hentry hv
          rw [BitVec.le_def] at hge
          rw [BitVec.lt_def] at hnext ⊢
          omega
        · rw [hsucc]
          exact hentry
    · obtain ⟨l₁, r₁, hfinish, hl₁⟩ :=
        afterHit_beyond hr hm'.entry ⟨hlo', hle', hhi'⟩ hmax hrest
      refine ⟨l₁, r₁, hfinish, fun hb => ?_, fun hgood => (hmax hgood.1).elim⟩
      have hregion := hb.found hbelow
      obtain ⟨v, hstab, hv⟩ := hregion.contains
      have hsorted := hr.sorted m' l₁ _ v hlo' hl₁ hregion.inside.2 hm'.entry hstab
      bv_omega

/-- `stab_binsearch` brackets the address if and only if the range has no entry of
the type, or one at the address or before it and none that misleads the search. -/
theorem stab_binsearch_brackets (hr : StabRange stabs type left right)
    (hfuel : 2 * (right - left + 1).toNat + 1 < fuel) :
    ∃ l₁ r₁, stabBinsearch stabs type fuel left right addr = some (l₁, r₁) ∧
      (Brackets stabs type left right addr l₁ r₁ ↔
        ¬ SomeStab stabs type left right ∨
          SomeBelow stabs type left right addr ∧ NotMisled stabs type left right addr) := by
  have hstart : SearchPhase stabs type left right addr addr
      ⟨left, right, left, right, false, addr⟩ :=
    ⟨⟨le_rfl, le_rfl⟩, rfl, rfl, Or.inl rfl, fun i v hi hi' => by simp only at hi'; omega,
      fun i v hi hi' => by simp only at hi; omega,
      Or.inl ⟨rfl, fun i v hi hi' => by simp only at hi'; omega⟩,
      fun _ => ⟨rfl, rfl, fun i v hi hi' => by simp only at hi'; omega⟩, fun h => by simp at h⟩
  obtain ⟨s, hloop, hturns, hend⟩ := search_ends hr hstart.within hfuel
  have hrun : stabBinsearch stabs type fuel left right addr = s.finish stabs type := by
    rw [stabBinsearch, hloop]
    rfl
  rw [hrun]
  rcases hstart.run hr (fun v hv => by bv_omega) (fun v hv => hv) with
    ⟨t, ht, htend, hphase, hno⟩ | ⟨m, r', hhits, ht, hm⟩
  · obtain rfl := ht.unique hturns htend hend
    obtain ⟨l₁, r₁, hfinish, hiff⟩ := hphase.finish hr htend
    have hmisled : NotMisled stabs type left right addr :=
      fun m r' hhits => (hno m r' hhits).elim
    refine ⟨l₁, r₁, hfinish, ?_⟩
    rw [hiff, and_iff_left hmisled]
  · have hrest := ht.rest hturns hend
    obtain ⟨hlo, hle, hhi⟩ := hm.inside
    have hbelow : SomeBelow stabs type left right addr :=
      ⟨m, addr, hlo, by omega, hm.entry, BitVec.le_refl addr⟩
    have hcond : (¬ SomeStab stabs type left right ∨
        SomeBelow stabs type left right addr ∧ NotMisled stabs type left right addr) ↔
        addr ≠ BitVec.allOnes 32 ∧ ∀ m' r₂, Hits stabs type (addr + 1#32) m r' m' r₂ →
          addr + 1#32 = BitVec.allOnes 32 ∧ HasStab stabs type (m' - 1) addr := by
      constructor
      · rintro (hnone | ⟨-, hgood⟩)
        · exact (hnone hbelow.some).elim
        · exact hgood m r' hhits
      · refine fun hgood => Or.inr ⟨hbelow, fun m₁ r₁ hhits' => ?_⟩
        obtain ⟨rfl, rfl⟩ := hhits.unique hhits'
        exact hgood
    rw [hcond]
    by_cases hmax : addr = BitVec.allOnes 32
    · have hentry := hm.entry
      rw [hmax] at hrest hentry
      refine ⟨m - 1, m - 1, afterHit_last hr hentry ⟨hlo, hle, hhi⟩ hrest hend, fun hb => ?_,
        fun hgood => (hgood.1 hmax).elim⟩
      -- the match itself lies behind what is found
      have hlt := (hb.found hbelow).last m addr (by omega) (by omega) hm.entry
      exact (BitVec.lt_irrefl _ hlt).elim
    · obtain ⟨l₁, r₁, hfinish, hiff⟩ := hm.finish hr hmax hrest hend
      exact ⟨l₁, r₁, hfinish, by rw [hiff, and_iff_right hmax]⟩

end Search

/-! ## Two runs -/

/-- Functions at `addr` and at the address just behind it. -/
def adjacentStabs (i : Int) : Option Stab :=
  if i = 0 then some ⟨0x24, 0x10⟩ else if i = 1 then some ⟨0x24, 0x11⟩ else none

theorem adjacentStabs_range : StabRange adjacentStabs 0x24 0 1 where
  nonneg := le_rfl
  defined := fun i hi hi' => by
    obtain rfl | rfl : i = 0 ∨ i = 1 := by omega
    · exact ⟨_, rfl⟩
    · exact ⟨_, rfl⟩
  sorted := fun i j v w hi hij hj hv hw => by
    obtain ⟨e, he, -, rfl⟩ := hv
    obtain ⟨e', he', -, rfl⟩ := hw
    obtain rfl | rfl : i = 0 ∨ i = 1 := by omega
    · obtain rfl := Option.some.inj he
      obtain rfl | rfl : j = 0 ∨ j = 1 := by omega
      · obtain rfl := Option.some.inj he'
        decide
      · obtain rfl := Option.some.inj he'
        decide
    · obtain rfl : j = 1 := by omega
      obtain rfl := Option.some.inj he
      obtain rfl := Option.some.inj he'
      decide

/-- Of two functions in a row the second one's address is bracketed. -/
theorem stab_binsearch_second :
    ∃ l₁ r₁, stabBinsearch adjacentStabs 0x24 6 0 1 0x11#32 = some (l₁, r₁) ∧
      (Brackets adjacentStabs 0x24 0 1 0x11#32 l₁ r₁ ↔
        ¬ SomeStab adjacentStabs 0x24 0 1 ∨
          SomeBelow adjacentStabs 0x24 0 1 0x11#32 ∧ NotMisled adjacentStabs 0x24 0 1 0x11#32) :=
  stab_binsearch_brackets adjacentStabs_range (by decide)

/-- The address before the functions is taken for one that the range contains: left
and right are both -1. -/
theorem stab_binsearch_before :
    StabRange adjacentStabs 0x24 0 1 ∧ ¬ SomeBelow adjacentStabs 0x24 0 1 0xf#32 ∧
      stabBinsearch adjacentStabs 0x24 6 0 1 0xf#32 = some (-1, -1) ∧
      ¬ Brackets adjacentStabs 0x24 0 1 0xf#32 (-1) (-1) := by
  have hnone : ¬ SomeBelow adjacentStabs 0x24 0 1 0xf#32 := by
    rintro ⟨i, v, hi, hi', ⟨e, he, -, rfl⟩, hv⟩
    obtain rfl | rfl : i = 0 ∨ i = 1 := by omega
    · obtain rfl := Option.some.inj he
      exact absurd hv (by decide)
    · obtain rfl := Option.some.inj he
      exact absurd hv (by decide)
  refine ⟨adjacentStabs_range, hnone, by decide, fun hb => ?_⟩
  have hlt := hb.notFound hnone
  omega

end Jos

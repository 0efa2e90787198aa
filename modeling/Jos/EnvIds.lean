import Jos.PageAccounting
import Jos.Partial

/-!
# Environment ids

`env_alloc` gives a slot the ids of `generations` generations in turn, and then starts
again (`envGeneration_next`).  A run is any order of calls of `env_alloc` and `env_free`
from `env_init` on, with other changes between them that leave the table as it is.

`envRun_ids` is the result: ids are positive and name their slot, no two environments
share one, and one that was freed is refused until its slot was reused `generations`
times.
-/

namespace Jos

open Programs LinkedList

/-- The number of generations of the ids of a slot. -/
def generations : Nat := 2 ^ 19 - 1

/-- The generation of an id; it is zero in a slot that was never used. -/
def envGeneration (envId : U32) : Nat := envId.toNat / 4096

/-- The id of a slot: none yet, or one that names the slot. -/
structure IdAt (e : Nat) (envId : U32) : Prop where
  positive : envId.toNat < 2 ^ 31
  slot : envId = 0#32 ∨ 4096 ≤ envId.toNat ∧ envId.toNat % 4096 = e

/-- What is done to the table. -/
inductive EnvCall where
  /-- `env_alloc` gives out a slot. -/
  | took (e : Nat)
  /-- `env_alloc` fails. -/
  | refused
  /-- `env_free` of a slot. -/
  | freed (e : Nat)
  /-- Anything else. -/
  | other
deriving DecidableEq

/-- What was done, the last first. -/
inductive EnvRun (k : Kernel) : List EnvCall → Kernel → Prop where
  | nil : EnvRun k [] k
  | took {calls : List EnvCall} {k₁ k₂ : Kernel} {parentId : U32} {e : Nat} :
      EnvRun k calls k₁ → (envAlloc parentId).run k₁ = .ret (.ok e) k₂ →
      EnvRun k (.took e :: calls) k₂
  | refused {calls : List EnvCall} {k₁ k₂ : Kernel} {parentId : U32} {r : Int} :
      EnvRun k calls k₁ → (envAlloc parentId).run k₁ = .ret (.error r) k₂ →
      EnvRun k (.refused :: calls) k₂
  | freed {calls : List EnvCall} {k₁ k₂ : Kernel} {c e : Nat} :
      EnvRun k calls k₁ → e < nenv → (envFree c e).run k₁ = .ret () k₂ →
      EnvRun k (.freed e :: calls) k₂
  | other {calls : List EnvCall} {k₁ k₂ : Kernel} :
      EnvRun k calls k₁ → SameTable k₁ k₂ → EnvRun k (.other :: calls) k₂

/-- How often a slot was given out. -/
def reuses (e : Nat) (calls : List EnvCall) : Nat := calls.count (.took e)

/-- What holds of the ids in every state of a run. -/
structure EnvIds (k : Kernel) : Prop where
  assigned : ∀ parentId e k', (envAlloc parentId).run k = .ret (.ok e) k' →
    e < nenv ∧ 0 < (k'.envs e).envId.toInt ∧ envx (k'.envs e).envId = e
  distinct : ∀ e e', e < nenv → e' < nenv →
    (k.envs e).envStatus ≠ .free → (k.envs e').envStatus ≠ .free →
    (k.envs e).envId = (k.envs e').envId → e = e'
  freeList : ∃ l : List Nat, Chain (fun e => (k.envs e).envLink) k.envFreeList l ∧
    l.Nodup ∧ ∀ e, e ∈ l ↔ e < nenv ∧ (k.envs e).envStatus = .free
  stale : ∀ c e k₁ calls k₂, e < nenv → (envFree c e).run k = .ret () k₁ →
    EnvRun k₁ calls k₂ → reuses e calls ≤ 2 ^ 19 - 2 →
    ∀ c' checkperm, (envid2env c' (k.envs e).envId checkperm).run k₂ =
      .ret (.error (-eBadEnv)) k₂

/-! ## Generations -/

section Generations

variable {e g n : Nat} {envId envId' : U32}

theorem IdAt.zero : IdAt e 0#32 := ⟨by decide, Or.inl rfl⟩

theorem IdAt.generation_lt (h : IdAt e envId) : envGeneration envId < 2 ^ 19 := by
  have hlt := h.positive
  unfold envGeneration
  omega

theorem clearLow_toNat (x : U32) :
    (x &&& ~~~(BitVec.ofNat 32 (nenv - 1))).toNat = x.toNat / 1024 * 1024 := by
  have hshift : x &&& ~~~(BitVec.ofNat 32 (nenv - 1)) = (x >>> 10) <<< 10 := by
    ext i hi
    unfold nenv
    interval_cases i <;> simp
  have hlt := x.isLt
  rw [hshift, BitVec.toNat_shiftLeft, BitVec.toNat_ushiftRight,
    Nat.shiftRight_eq_div_pow, Nat.shiftLeft_eq]
  omega

/-- The generation and the slot of an id. -/
theorem ids_or (he : e < nenv) {x : U32} (hx : x.toNat = g * 4096) :
    (x ||| BitVec.ofNat 32 e).toNat = g * 4096 + e := by
  have hlow : e < 2 ^ 12 := Nat.lt_trans he (by decide)
  have hor := Nat.two_pow_add_eq_or_of_lt hlow g
  rw [BitVec.toNat_or, hx, BitVec.toNat_ofNat, Nat.mod_eq_of_lt (by omega)]
  rw [show g * 4096 = 2 ^ 12 * g by omega]
  exact hor.symm

/-- The id that `env_alloc` gives, after any id of the slot. -/
theorem nextEnvId_toNat (he : e < nenv) (h : IdAt e envId) :
    (nextEnvId envId e).toNat = (envGeneration envId % generations + 1) * 4096 + e := by
  have hlt := h.positive
  have hslot : envId.toNat % 4096 < 1024 := by
    rcases h.slot with rfl | ⟨-, hmod⟩
    · decide
    · rw [hmod]
      exact he
  have hsum : (envId + envGen).toNat = envId.toNat + 4096 := by
    rw [BitVec.toNat_add]
    show (envId.toNat + 4096) % 2 ^ 32 = _
    omega
  have hclear : ((envId + envGen) &&& ~~~(BitVec.ofNat 32 (nenv - 1))).toNat =
      (envGeneration envId + 1) * 4096 := by
    rw [clearLow_toNat, hsum]
    unfold envGeneration
    omega
  have hgen := h.generation_lt
  unfold nextEnvId
  dsimp only
  by_cases hwrap : envGeneration envId = generations
  · -- the sign bit is reached, and the first generation follows
    have hneg : ((envId + envGen) &&& ~~~(BitVec.ofNat 32 (nenv - 1))).toInt ≤ 0 := by
      rw [BitVec.toInt_eq_toNat_cond, hclear, hwrap]
      decide
    rw [if_pos hneg, hwrap, Nat.mod_self]
    exact ids_or he rfl
  · have hlast : envGeneration envId < generations := by
      unfold generations at hwrap ⊢
      omega
    have hpos : ¬ ((envId + envGen) &&& ~~~(BitVec.ofNat 32 (nenv - 1))).toInt ≤ 0 := by
      unfold generations at hlast
      rw [BitVec.toInt_eq_toNat_cond, hclear]
      split <;> omega
    rw [if_neg hpos, Nat.mod_eq_of_lt hlast]
    exact ids_or he hclear

theorem IdAt.next (he : e < nenv) (h : IdAt e envId) : IdAt e (nextEnvId envId e) := by
  have hnat := nextEnvId_toNat he h
  have hmod : envGeneration envId % generations < generations := Nat.mod_lt _ (by decide)
  unfold generations at hmod hnat
  unfold nenv at he
  exact ⟨by omega, Or.inr (by omega)⟩

theorem envGeneration_next (he : e < nenv) (h : IdAt e envId) :
    envGeneration (nextEnvId envId e) = envGeneration envId % generations + 1 := by
  have hnat := nextEnvId_toNat he h
  unfold nenv at he
  unfold envGeneration at hnat ⊢
  omega

/-- The generation `n` ids after generation `g`. -/
def generationAfter (g n : Nat) : Nat := (g - 1 + n) % generations + 1

theorem generationAfter_succ :
    generationAfter g n % generations + 1 = generationAfter g (n + 1) := by
  unfold generationAfter
  rw [Nat.add_mod _ 1 generations, Nat.mod_mod, ← Nat.add_mod]
  exact congrArg (· % generations + 1) (by omega)

/-- No generation comes again before all the others. -/
theorem generationAfter_ne (hg : 0 < g) (hlt : g < 2 ^ 19) (hn : 0 < n)
    (hle : n ≤ 2 ^ 19 - 2) : generationAfter g n ≠ g := by
  unfold generationAfter generations
  omega

/-- After as many ids as there are generations, the first comes again. -/
theorem generationAfter_period (hg : 0 < g) (hlt : g < 2 ^ 19) :
    generationAfter g generations = g := by
  unfold generationAfter generations
  omega

end Generations

/-! ## Runs -/

section Runs

variable {k k₀ k₁ k₂ : Kernel} {calls : List EnvCall} {c e : Nat} {parentId : U32}

/-- What every run keeps. -/
structure IdTable (k : Kernel) : Prop where
  slots : Slots k
  ids : ∀ e, e < nenv → IdAt e (k.envs e).envId
  live : ∀ e, (k.envs e).envStatus ≠ .free → 0 < envGeneration (k.envs e).envId

theorem IdTable.init (hzero : ∀ e, k₀.envs e = Env.zero) : IdTable (envInit k₀) where
  slots := (envInit_table k₀ hzero).toSlots
  ids := fun _ _ => IdAt.zero
  live := fun _ h => absurd rfl h

/-- The id of a slot after `env_alloc`. -/
theorem envAlloc_id (hrun : (envAlloc parentId).run k = .ret (.ok e) k₁) :
    (k₁.envs e).envId = nextEnvId (k.envs e).envId e ∧
      ∀ e', e' ≠ e → (k₁.envs e').envId = (k.envs e').envId := by
  obtain ⟨-, p, vm, rfl⟩ := envAlloc_ret hrun
  refine ⟨?_, fun e' hne => by rw [allocated_envs_of_ne hne]⟩
  rw [allocated_envs_self]
  rfl

theorem envFree_id (hrun : (envFree c e).run k = .ret () k₁) (e' : Nat) :
    (k₁.envs e').envId = (k.envs e').envId := by
  obtain ⟨d, vm, -, rfl⟩ := envFree_ret hrun
  by_cases hee : e' = e
  · subst hee
    rw [freed_envs_self]
  · rw [freed_envs_of_ne hee]

theorem IdTable.alloc (h : IdTable k) (hrun : (envAlloc parentId).run k = .ret (.ok e) k₁) :
    IdTable k₁ where
  slots := by
    obtain ⟨hlist, p, vm, rfl⟩ := envAlloc_ret hrun
    exact h.slots.alloc hlist
  ids := fun e' he' => by
    obtain ⟨hself, hrest⟩ := envAlloc_id hrun
    by_cases hee : e' = e
    · subst hee
      rw [hself]
      exact (h.ids e' he').next he'
    · rw [hrest e' hee]
      exact h.ids e' he'
  live := fun e' hlive => by
    obtain ⟨hself, hrest⟩ := envAlloc_id hrun
    obtain ⟨hlist, p, vm, rfl⟩ := envAlloc_ret hrun
    by_cases hee : e' = e
    · subst hee
      have he' := (h.slots.head_free hlist).1
      rw [hself, envGeneration_next he' (h.ids e' he')]
      exact Nat.succ_pos _
    · rw [allocated_envs_of_ne hee] at hlive ⊢
      exact h.live e' hlive

theorem IdTable.free (h : IdTable k) (he : e < nenv)
    (hrun : (envFree c e).run k = .ret () k₁) : IdTable k₁ where
  slots := by
    obtain ⟨d, vm, hd, rfl⟩ := envFree_ret hrun
    exact h.slots.release he hd
  ids := fun e' he' => by
    rw [envFree_id hrun]
    exact h.ids e' he'
  live := fun e' hlive => by
    rw [envFree_id hrun]
    obtain ⟨d, vm, hd, rfl⟩ := envFree_ret hrun
    by_cases hee : e' = e
    · subst hee
      rw [freed_envs_self] at hlive
      exact absurd rfl hlive
    · rw [freed_envs_of_ne hee] at hlive
      exact h.live e' hlive

theorem IdTable.run (h : IdTable k) (hrun : EnvRun k calls k₁) : IdTable k₁ := by
  induction hrun with
  | nil => exact h
  | took _ hret ih => exact ih.alloc hret
  | refused _ hret ih =>
      obtain rfl := envAlloc_error hret
      exact ih
  | freed _ he hret ih => exact ih.free he hret
  | other _ hsame ih =>
      refine ⟨ih.slots.congr hsame, fun e he => ?_, fun e hlive => ?_⟩
      · rw [hsame.id]
        exact ih.ids e he
      · rw [hsame.id]
        exact ih.live e (fun hfree => hlive ((hsame.free e).mpr hfree))

/-- The slot of an id that was freed: it is free and has that id still, or it has the id
of a later generation. -/
theorem EnvRun.generation (h : IdTable k) (he : e < nenv)
    (hfree : (k.envs e).envStatus = .free) (hused : 0 < envGeneration (k.envs e).envId)
    (hrun : EnvRun k calls k₁) :
    envGeneration (k₁.envs e).envId =
        generationAfter (envGeneration (k.envs e).envId) (reuses e calls) ∧
      (reuses e calls = 0 → (k₁.envs e).envStatus = .free) := by
  have hnil : generationAfter (envGeneration (k.envs e).envId) 0 =
      envGeneration (k.envs e).envId := by
    have hlt := (h.ids e he).generation_lt
    unfold generationAfter generations
    omega
  induction hrun with
  | nil => exact ⟨hnil.symm, fun _ => hfree⟩
  | @took calls k₁ k₂ parentId e' hbefore hret ih =>
      obtain ⟨hself, hrest⟩ := envAlloc_id hret
      have htable := h.run hbefore
      by_cases hee : e' = e
      · subst hee
        have hcount : reuses e' (.took e' :: calls) = reuses e' calls + 1 :=
          List.count_cons_self
        rw [hcount, hself, envGeneration_next he (htable.ids e' he), ih.1]
        exact ⟨generationAfter_succ, fun hzero => absurd hzero (Nat.succ_ne_zero _)⟩
      · have hcount : reuses e (.took e' :: calls) = reuses e calls :=
          List.count_cons_of_ne (by simpa using hee)
        rw [hcount, hrest e (fun hh => hee hh.symm)]
        refine ⟨ih.1, fun hzero => ?_⟩
        obtain ⟨-, p, vm, rfl⟩ := envAlloc_ret hret
        rw [allocated_envs_of_ne (fun hh => hee hh.symm)]
        exact ih.2 hzero
  | refused _ hret ih =>
      obtain rfl := envAlloc_error hret
      exact ih
  | @freed calls k₁ k₂ c e' _ _ hret ih =>
      refine ⟨(congrArg envGeneration (envFree_id hret e)).trans ih.1, fun hzero => ?_⟩
      obtain ⟨d, vm, -, rfl⟩ := envFree_ret hret
      by_cases hee : e = e'
      · subst hee
        rw [freed_envs_self]
      · rw [freed_envs_of_ne hee]
        exact ih.2 hzero
  | other _ hsame ih =>
      refine ⟨(congrArg envGeneration (hsame.id e)).trans ih.1, fun hzero => ?_⟩
      exact (hsame.free e).mpr (ih.2 hzero)

/-- `envid2env` refuses the id of a slot that is free or has another id. -/
theorem envid2env_stale {envid : U32} {checkperm : Bool} (hne : envid ≠ 0#32)
    (hstale : (k.envs (envx envid)).envStatus = .free ∨ (k.envs (envx envid)).envId ≠ envid) :
    (envid2env c envid checkperm).run k = .ret (.error (-eBadEnv)) k := by
  unfold envid2env
  rw [Prog.run_bind_ret (Prog.run_get k), if_neg hne]
  exact congrArg (Prog.run · k) (if_pos hstale)

/-- Ids after any run. -/
theorem envRun_ids (hzero : ∀ e, k₀.envs e = Env.zero) (hrun : EnvRun (envInit k₀) calls k) :
    EnvIds k := by
  have htable := (IdTable.init hzero).run hrun
  exact {
    assigned := fun parentId e k' hret => by
      obtain ⟨hlist, -⟩ := envAlloc_ret hret
      have he := (htable.slots.head_free hlist).1
      have hid := (envAlloc_id hret).1
      have hnat := nextEnvId_toNat he (htable.ids e he)
      have hpos := ((htable.ids e he).next he).positive
      refine ⟨he, ?_, ?_⟩
      · rw [hid, BitVec.toInt_eq_toNat_of_lt (by omega)]
        omega
      · rw [hid]
        exact envx_nextEnvId _ he
    distinct := fun e e' he he' hlive hlive' heq => by
      rw [← htable.slots.id_slot e he hlive, ← htable.slots.id_slot e' he' hlive', heq]
    freeList := by
      obtain ⟨l, hchain, hmem⟩ := htable.slots.freeChain
      exact ⟨l, hchain, hchain.nodup, hmem⟩
    stale := fun c e k₁ calls' k₂ he hret hrun' hle c' checkperm => by
      obtain ⟨d, vm, hd, hk₁⟩ := envFree_ret hret
      have hlive : (k.envs e).envStatus ≠ .free := by
        intro hfree
        rw [(htable.slots.pgdir_none e he).mpr hfree] at hd
        cases hd
      have hslot : envx (k.envs e).envId = e := htable.slots.id_slot e he hlive
      have hpos := htable.live e hlive
      have hlt := (htable.ids e he).generation_lt
      have hid := envFree_id hret e
      have hfree : (k₁.envs e).envStatus = .free := by
        rw [hk₁, freed_envs_self]
      obtain ⟨hgen, hfree'⟩ := hrun'.generation (htable.free he hret) he hfree
        (by rw [hid]; exact hpos)
      rw [hid] at hgen
      have hne : (k.envs e).envId ≠ 0#32 := by
        intro hzero
        rw [hzero] at hpos
        exact absurd hpos (by decide)
      refine envid2env_stale hne ?_
      rw [hslot]
      by_cases hzero : reuses e calls' = 0
      · exact Or.inl (hfree' hzero)
      · refine Or.inr (fun hsame => ?_)
        rw [hsame] at hgen
        exact generationAfter_ne hpos hlt (Nat.pos_of_ne_zero hzero) hle hgen.symm }

/-- The ids after an environment was created. -/
theorem envRun_ids_boot : ∃ k₀ k, EnvRun (envInit k₀) [.took 0] k ∧ EnvIds k := by
  obtain ⟨k₀, hzero, hboot⟩ := (bootKernel_leaves (n := 8) (by decide) (by decide) 1).envs
  have htook : ∃ k, (envAlloc 0#32).run (envInit k₀) = .ret (.ok 0) k := by
    rw [← hboot]
    exact ⟨_, rfl⟩
  obtain ⟨k, hret⟩ := htook
  have hrun : EnvRun (envInit k₀) [.took 0] k := EnvRun.nil.took hret
  exact ⟨k₀, k, hrun, envRun_ids hzero hrun⟩

end Runs

end Jos

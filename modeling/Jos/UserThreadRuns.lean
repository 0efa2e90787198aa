import Jos.UserThreads

/-!
# Runs of the user threads

Any sequence of calls of `thread_create`, `thread_onhalt`, `thread_yield` and `thread_halt`
that starts behind `thread_init`.  A history says which threads were created and have halted,
with which contexts they began to wait, and which functions they have registered.
-/

namespace Jos

namespace UserThreads

open Programs TailQueue

/-! ## Histories -/

/-- What the code that runs can call.  `thread_yield` and `thread_halt` come with the context
that `jos_setjmp` finds. -/
inductive Call where
  | create (entry arg : U32)
  | onhalt (fn : U32)
  | yield (jb : JmpBuf)
  | halt (jb : JmpBuf)

section Runs

-- the address of `thread_entry`
variable (threadEntry : U32)

def Call.run : Call → Prog Threads Int
  | create entry arg => threadCreate threadEntry entry arg
  | onhalt fn => threadOnhalt fn
  | yield jb => do
      let _ ← threadYield jb
      pure 0
  | halt jb => do
      threadHalt jb
      pure 0

/-- What the threads have done: those that were created and those that have halted, the
contexts with which they began to wait, and the functions that they have registered, each in
the order of time. -/
structure History where
  created : List U32
  halted : List U32
  waits : List (U32 × JmpBuf)
  registered : U32 → List U32

def History.start : History := ⟨[], [], [], fun _ => []⟩

def History.register (h : History) (tid fn : U32) : History :=
  { h with registered := Function.update h.registered tid (h.registered tid ++ [fn]) }

def History.next (h : History) (s : Threads) (r : Int) : Call → History
  | .create _ _ =>
      if r = 0 then
        { h with
          created := h.created ++ [s.maxTid]
          waits := h.waits ++ [(s.maxTid, entryContext threadEntry ((s.mallocs 1).getD 0))] }
      else h
  | .onhalt fn =>
      match s.curTc with
      | some cur =>
          if r = 0 then h.register (s.tid cur) fn else h
      | none => h
  | .yield jb =>
      match s.curTc, (s.queues .threadQueue).first with
      | some cur, some _ => { h with waits := h.waits ++ [(s.tid cur, jb)] }
      | _, _ => h
  | .halt _ =>
      match s.curTc with
      | some cur => { h with halted := h.halted ++ [s.tid cur] }
      | none => h

/-- `thread_init` has run. -/
structure Started (s : Threads) : Prop where
  maxTid : s.maxTid = 0#32
  curTc : s.curTc = none
  queues : ∀ tq, s.queues tq = ⟨none, none⟩
  logs : s.called = [] ∧ s.freed = [] ∧ s.resumed = []

/-- Before a thread runs, threads are created and the first one is started. -/
def Call.Allowed (c : Call) (s : Threads) : Prop :=
  s.curTc = none → (∃ entry arg, c = .create entry arg) ∨ ∃ jb, c = .yield jb

/-- The calls that were made, and what they have done. -/
inductive Runs : Threads → History → Prop where
  | start {s : Threads} : Started s → Runs s .start
  | call {s t : Threads} {h : History} {r : Int} (c : Call) : Runs s h → c.Allowed s →
      (c.run threadEntry).run s = .ret r t → Runs t (h.next threadEntry s r c)

/-- The functions of a thread are called with its number. -/
def History.calls (h : History) (tid : U32) : List (U32 × U32) :=
  (h.registered tid).map (fun fn => (fn, tid))

/-- `q` is what `thread_queue` holds. -/
def Threads.Queued (s : Threads) (q : List Nat) : Prop :=
  LinkedList.Chain s.queueLink (s.queues .threadQueue).first q

/-- The threads that have not halted: the current one, then those that wait. -/
def Threads.living (s : Threads) (q : List Nat) : List Nat := s.curTc.toList ++ q

/-- A block of a thread that has not halted. -/
def Threads.Needs (s : Threads) (b : Nat) : Prop :=
  ∃ q, s.Queued q ∧ ∃ a, a ∈ s.living q ∧ (b = a ∨ b = (s.context a).stackBottom)

/-- What is so between two calls. -/
structure Sound (s : Threads) (h : History) (q : List Nat) : Prop where
  queued : s.Queued q
  /-- each thread has its own number -/
  created : h.created.Nodup
  /-- the threads that are current or wait are the ones that were created and have not
  halted, each once -/
  living : ((s.living q).map s.tid).Perm (h.created.filter (fun tid => tid ∉ h.halted))
  halted : h.halted.Nodup ∧ ∀ tid, tid ∈ h.halted → tid ∈ h.created
  /-- the contexts that were loaded are the first of those that were saved, and the ones that
  wait are the others -/
  waits : s.resumed ++ q.map (fun a => (s.tid a, (s.context a).jb)) = h.waits
  /-- the functions of all threads that have halted, the last one apart, were called -/
  called : s.called = h.halted.dropLast.flatMap h.calls
  blocks : ∀ a, a ∈ s.living q → ∃ tc, s.heap a = some (.context tc) ∧
    s.heap tc.stackBottom = some .stack

/-- What a call does from `s` to `t`. -/
structure StepSound (s t : Threads) (h : History) (c : Call) : Prop where
  /-- no block is freed that a thread needs -/
  freed : ∃ bs, t.freed = s.freed ++ bs ∧ ∀ b, b ∈ bs → ¬ s.Needs b ∧ ¬ t.Needs b
  /-- the thread that waits longest goes on, with its context -/
  resumes : ∀ jb, c = .yield jb ∨ c = .halt jb → (s.queues .threadQueue).first ≠ none →
    ∃ tid saved cur, h.waits[s.resumed.length]? = some (tid, saved) ∧
      t.resumed = s.resumed ++ [(tid, saved)] ∧ t.regs = saved ∧
      t.curTc = some cur ∧ t.tid cur = tid
  alone : ∀ jb, c = .yield jb → (s.queues .threadQueue).first = none → t = s
  /-- a thread that halts calls the functions of the one that has halted before it -/
  called : ∀ jb, c = .halt jb → t.called = h.halted.flatMap h.calls

end Runs

/-! ## The invariant -/

/-- What is so between two calls, with what the queues hold. -/
structure Inv (s : Threads) (h : History) (l : QueueName → List Nat) : Prop where
  shape : Shape s s.curTc.toList l
  maxTid : s.maxTid ≠ ~~~0#32
  below : ∀ tid, tid ∈ h.created → tid.toNat < s.maxTid.toNat
  created : h.created.Nodup
  living : ((s.living (l .threadQueue)).map s.tid ++ h.halted).Perm h.created
  waits : s.resumed ++ (l .threadQueue).map (fun a => (s.tid a, (s.context a).jb)) = h.waits
  called : s.called = h.halted.dropLast.flatMap h.calls
  last : (l .killQueue).map s.tid = h.halted.getLast?.toList
  registered : ∀ a, a ∈ everyone s.curTc.toList l → (s.context a).calls = h.calls (s.tid a)
  unregistered : ∀ tid, tid ∉ h.created → h.registered tid = []

variable {s t : Threads} {q rest : List Nat} {l : QueueName → List Nat} {a b cur st : Nat}
  {h : History} {jb : JmpBuf} {threadEntry entry arg fn tid : U32}

theorem Started.inv (hs : Started s) : Inv s .start (fun _ => []) where
  shape := {
    holds := fun tq => by
      rw [hs.queues tq]
      exact ⟨rfl, fun _ hb => nomatch hb⟩
    once := by simp [everyone, hs.curTc]
    threads := fun a ha => by simp [everyone, hs.curTc] at ha
    ownStack := fun a b ha => by simp [everyone, hs.curTc] at ha }
  maxTid := by
    rw [hs.maxTid]
    decide
  below := fun _ htid => nomatch htid
  created := List.nodup_nil
  living := by simp [Threads.living, hs.curTc, History.start]
  waits := by simp [hs.logs.2.2, History.start]
  called := hs.logs.1
  last := rfl
  registered := fun a ha => by simp [everyone, hs.curTc] at ha
  unregistered := fun _ _ => rfl

theorem toNat_succ {w : U32} (h : w ≠ ~~~0#32) : (w + 1).toNat = w.toNat + 1 := by
  have hmax : w.toNat ≠ 4294967295 := fun heq => h (BitVec.eq_of_toNat_eq heq)
  have hlt := w.isLt
  rw [BitVec.toNat_add]
  exact Nat.mod_eq_of_lt (by simp; omega)

namespace Inv

/-- No two threads have the same number. -/
theorem numbers (hi : Inv s h l) : ((s.living (l .threadQueue)).map s.tid ++ h.halted).Nodup :=
  hi.living.nodup_iff.mpr hi.created

theorem kill (hi : Inv s h l) : (l .killQueue).length ≤ 1 := by
  have hlen := congrArg List.length hi.last
  rw [List.length_map] at hlen
  rw [hlen]
  cases h.halted.getLast? <;> simp

theorem mem_created (hi : Inv s h l) (ha : a ∈ everyone s.curTc.toList l) :
    s.tid a ∈ h.created := by
  refine hi.living.mem_iff.mp (List.mem_append.mpr ?_)
  unfold everyone at ha
  rw [← List.append_assoc, List.mem_append] at ha
  rcases ha with hmem | hmem
  · exact Or.inl (List.mem_map_of_mem hmem)
  · refine Or.inr (List.mem_of_getLast? (Option.mem_toList.mp ?_))
    rw [← hi.last]
    exact List.mem_map_of_mem hmem

/-- The threads of the state have different numbers. -/
theorem tid_inj (hi : Inv s h l) (ha : a ∈ everyone s.curTc.toList l) (hcur : s.curTc = some cur)
    (heq : s.tid a = s.tid cur) : a = cur := by
  obtain ⟨hliving, -, hapart⟩ := List.nodup_append.mp hi.numbers
  have hmem : cur ∈ s.living (l .threadQueue) := by simp [Threads.living, hcur]
  unfold everyone at ha
  rw [← List.append_assoc, List.mem_append] at ha
  rcases ha with hin | hin
  · exact List.inj_on_of_nodup_map hliving hin hmem heq
  · exfalso
    refine hapart _ (List.mem_map_of_mem hmem) _
      (List.mem_of_getLast? (Option.mem_toList.mp ?_)) rfl
    rw [← hi.last, ← heq]
    exact List.mem_map_of_mem hin

theorem sound (hi : Inv s h l) : Sound s h (l .threadQueue) := by
  obtain ⟨hliving, hhalted, hapart⟩ := List.nodup_append.mp hi.numbers
  refine ⟨(hi.shape.holds .threadQueue).chain, hi.created, ?_, ⟨hhalted, fun tid htid => ?_⟩,
    hi.waits, hi.called, fun a ha => ?_⟩
  · have hfilter := hi.living.filter (fun tid => tid ∉ h.halted)
    have hleft : ((s.living (l .threadQueue)).map s.tid).filter (fun tid => tid ∉ h.halted) =
        (s.living (l .threadQueue)).map s.tid :=
      List.filter_eq_self.mpr (fun tid htid =>
        decide_eq_true (fun hmem => hapart tid htid tid hmem rfl))
    have hright : h.halted.filter (fun tid => tid ∉ h.halted) = [] :=
      List.filter_eq_nil_iff.mpr (fun tid htid => by simp [htid])
    rwa [List.filter_append, hleft, hright, List.append_nil] at hfilter
  · exact hi.living.mem_iff.mp (List.mem_append_right _ htid)
  · have hmem : a ∈ everyone s.curTc.toList l := by
      unfold everyone
      rw [← List.append_assoc]
      exact List.mem_append_left _ ha
    exact hi.shape.threads a hmem

/-! ## What the calls keep -/

theorem untouched (hi : Inv s h l) (ht : Untouched s t)
    (hmax : t.maxTid = s.maxTid ∨ (t.maxTid = s.maxTid + 1 ∧ s.maxTid + 1 ≠ ~~~0#32)) :
    Inv t h l := by
  have hcontext : t.context = s.context := by
    funext a
    unfold Threads.context
    rw [ht.heap]
  have htid : t.tid = s.tid := by
    funext a
    unfold Threads.tid
    rw [hcontext]
  have hlt : s.maxTid.toNat ≤ t.maxTid.toNat ∧ t.maxTid ≠ ~~~0#32 := by
    rcases hmax with heq | ⟨heq, hne⟩
    · rw [heq]
      exact ⟨Nat.le_refl _, hi.maxTid⟩
    · rw [heq]
      exact ⟨(toNat_succ hi.maxTid).symm ▸ Nat.le_succ _, hne⟩
  refine ⟨?_, hlt.2, fun tid h => (hi.below tid h).trans_le hlt.1, hi.created, ?_, ?_, ?_, ?_, ?_,
    hi.unregistered⟩
  · rw [ht.curTc]
    exact hi.shape.rearrange (List.Perm.refl _) ht.heap (fun tq => by
      rw [ht.queueLink, ht.queues]
      exact hi.shape.holds tq)
  · unfold Threads.living
    rw [ht.curTc, htid]
    exact hi.living
  · rw [ht.resumed, htid, hcontext]
    exact hi.waits
  · rw [ht.called]
    exact hi.called
  · rw [htid]
    exact hi.last
  · rw [ht.curTc, htid, hcontext]
    exact hi.registered

/-- A thread that was created is behind the others. -/
theorem create (hi : Inv s h l) (hc : Created threadEntry s t a st)
    (hne : s.maxTid + 1 ≠ ~~~0#32)
    (hs : Shape t s.curTc.toList (Function.update l .threadQueue (l .threadQueue ++ [a]))) :
    Inv t (h.next threadEntry s 0 (.create entry arg))
      (Function.update l .threadQueue (l .threadQueue ++ [a])) := by
  obtain ⟨tc, hheap, htid, -, hjb, hnone⟩ := hc.context
  have hnew : t.context a = tc := context_eq hheap
  have hsame : ∀ b, b ∈ everyone s.curTc.toList l → t.context b = s.context b :=
    fun b hb => hc.context_eq (hi.shape.threads b hb)
  have hsametid : ∀ b, b ∈ everyone s.curTc.toList l → t.tid b = s.tid b := by
    intro b hb
    unfold Threads.tid
    rw [hsame b hb]
  have hnewtid : t.tid a = s.maxTid := by
    unfold Threads.tid
    rw [hnew, htid]
  have hwait : ∀ b, b ∈ l .threadQueue → b ∈ everyone s.curTc.toList l :=
    fun b hb => mem_everyone.mpr (Or.inr ⟨_, hb⟩)
  have hfresh : s.maxTid ∉ h.created := fun hmem => (hi.below _ hmem).ne rfl
  have hnext : h.next threadEntry s 0 (.create entry arg) =
      { h with
        created := h.created ++ [s.maxTid]
        waits := h.waits ++ [(s.maxTid, entryContext threadEntry st)] } := by
    unfold History.next
    rw [hc.mallocs]
    rfl
  have hqueue : Function.update l .threadQueue (l .threadQueue ++ [a]) .threadQueue =
      l .threadQueue ++ [a] := Function.update_self _ _ _
  have hkill : Function.update l .threadQueue (l .threadQueue ++ [a]) .killQueue =
      l .killQueue := Function.update_of_ne (by decide) _ _
  rw [hnext]
  refine ⟨?_, ?_, fun tid hmem => ?_, ?_, ?_, ?_, ?_, ?_, ?_, ?_⟩
  · rw [hc.curTc]
    exact hs
  · rw [hc.maxTid]
    exact hne
  · rw [hc.maxTid, toNat_succ hi.maxTid]
    rcases List.mem_append.mp hmem with hold | hlast
    · exact (hi.below tid hold).trans (Nat.lt_succ_self _)
    · rw [List.mem_singleton.mp hlast]
      exact Nat.lt_succ_self _
  · refine List.nodup_append.mpr ⟨hi.created, List.nodup_singleton _, ?_⟩
    rintro x hx y hy rfl
    exact hfresh (List.mem_singleton.mp hy ▸ hx)
  · have hmap : (t.living (l .threadQueue ++ [a])).map t.tid =
        (s.living (l .threadQueue)).map s.tid ++ [s.maxTid] := by
      unfold Threads.living
      rw [hc.curTc, ← List.append_assoc, List.map_append, List.map_singleton, hnewtid]
      refine congrArg (· ++ [s.maxTid]) (List.map_congr_left (fun b hb => hsametid b ?_))
      rcases List.mem_append.mp hb with hcur | hq
      · exact mem_everyone.mpr (Or.inl hcur)
      · exact hwait b hq
    rw [hqueue, hmap, List.append_assoc]
    refine (List.Perm.append_left _ List.perm_append_comm).trans ?_
    rw [← List.append_assoc]
    exact hi.living.append_right _
  · rw [hqueue, hc.resumed, List.map_append, ← List.append_assoc, List.map_singleton, hnewtid,
      hnew, hjb]
    refine congrArg (· ++ [_]) ?_
    rw [← hi.waits]
    refine congrArg (s.resumed ++ ·) (List.map_congr_left (fun b hb => ?_))
    rw [hsametid b (hwait b hb), hsame b (hwait b hb)]
  · rw [hc.called]
    exact hi.called
  · rw [hkill, ← hi.last]
    exact List.map_congr_left (fun b hb => hsametid b (mem_everyone.mpr (Or.inr ⟨_, hb⟩)))
  · intro b hb
    rw [hc.curTc, everyone_push.mem_iff] at hb
    rcases List.mem_cons.mp hb with rfl | hold
    · rw [hnew, hnewtid]
      unfold ThreadContext.calls History.calls
      rw [hnone, hi.unregistered _ hfresh]
      rfl
    · rw [hsame b hold, hsametid b hold]
      exact hi.registered b hold
  · intro tid hmem
    exact hi.unregistered tid (fun hold => hmem (List.mem_append_left _ hold))

theorem mem_cur (hcur : s.curTc = some cur) : cur ∈ everyone s.curTc.toList l :=
  mem_everyone.mpr (Or.inl (by simp [hcur]))

/-- A function that the current thread has registered. -/
theorem onhalt (hi : Inv s h l) (hcur : s.curTc = some cur) :
    Inv (s.setBlock cur (some (.context ((s.context cur).register fn))))
      (h.next threadEntry s 0 (.onhalt fn)) l := by
  have hnext : h.next threadEntry s 0 (.onhalt fn) = h.register (s.tid cur) fn := by
    unfold History.next
    rw [hcur]
    rfl
  have hcontext : ∀ b, b ≠ cur →
      (s.setBlock cur (some (.context ((s.context cur).register fn)))).context b = s.context b :=
    fun b hb => context_setBlock_of_ne hb
  have hjb : ∀ b, ((s.setBlock cur (some (.context ((s.context cur).register fn)))).tid b,
      ((s.setBlock cur (some (.context ((s.context cur).register fn)))).context b).jb) =
      (s.tid b, (s.context b).jb) := by
    intro b
    unfold Threads.tid
    by_cases heq : b = cur
    · subst heq
      rw [context_setBlock_self]
      rfl
    · rw [hcontext b heq]
  have htid : (s.setBlock cur (some (.context ((s.context cur).register fn)))).tid = s.tid :=
    funext (fun b => congrArg Prod.fst (hjb b))
  have hlast : s.tid cur ∉ h.halted := by
    obtain ⟨-, -, hapart⟩ := List.nodup_append.mp hi.numbers
    exact fun hmem => hapart _ (List.mem_map_of_mem (by simp [Threads.living, hcur])) _ hmem rfl
  have hother : ∀ tid, tid ≠ s.tid cur → (h.register (s.tid cur) fn).calls tid = h.calls tid := by
    intro tid hne
    unfold History.calls History.register
    simp only [Function.update_of_ne hne]
  rw [hnext]
  refine ⟨hi.shape.setContext (mem_cur hcur) _ rfl, hi.maxTid, hi.below, hi.created, ?_, ?_, ?_, ?_,
    fun a ha => ?_, fun tid hmem => ?_⟩
  · rw [htid]
    exact hi.living
  · rw [List.map_congr_left (fun b _ => hjb b)]
    exact hi.waits
  · refine hi.called.trans ?_
    refine List.flatMap_congr (fun tid hmem => (hother tid ?_).symm)
    rintro rfl
    exact hlast (List.dropLast_subset _ hmem)
  · rw [htid]
    exact hi.last
  · rw [htid]
    by_cases heq : a = cur
    · subst heq
      rw [context_setBlock_self, register_calls, hi.registered a ha]
      unfold History.calls History.register
      simp only [Function.update_self, List.map_append, List.map_singleton]
      rfl
    · rw [hcontext a heq, hi.registered a ha]
      exact (hother _ (fun h => heq (hi.tid_inj ha hcur h))).symm
  · have hne : tid ≠ s.tid cur := by
      rintro rfl
      exact hmem (hi.mem_created (mem_cur hcur))
    unfold History.register
    simp only [Function.update_of_ne hne]
    exact hi.unregistered tid hmem

/-- The first of the threads that wait goes on, with its context. -/
structure Resumes (s t : Threads) (a : Nat) : Prop where
  resumed : t.resumed = s.resumed ++ [(s.tid a, (s.context a).jb)]
  regs : t.regs = (s.context a).jb
  curTc : t.curTc = some a
  tid : t.tid a = s.tid a

theorem resume_resumes (u : Threads) (hres : u.resumed = s.resumed)
    (ha : u.context a = s.context a) : Resumes s (u.resume a) a := by
  have htid : u.tid a = s.tid a := by
    unfold Threads.tid
    rw [ha]
  refine ⟨?_, congrArg ThreadContext.jb ha, rfl, htid⟩
  unfold Threads.resume
  rw [hres, htid, ha]

/-- The threads that wait keep their contexts. -/
theorem save_waiting (hi : Inv s h l) (hb : b ∈ l .threadQueue) :
    (s.save jb).context b = s.context b := by
  refine save_context.trans (if_neg (fun hcur => ?_))
  exact hi.shape.held_apart (Option.mem_toList.mpr hcur) hb

theorem yield_resumes (hi : Inv s h l) (jb : JmpBuf) (hl : l .threadQueue = a :: rest)
    (links : Nat → Option Nat) (qs : QueueName → Queue Nat) :
    Resumes s (((s.save jb).relink links qs).resume a) a := by
  refine resume_resumes _ ?_ (hi.save_waiting (by simp [hl]))
  unfold Threads.save
  cases s.curTc <;> rfl

theorem halt_resumes (hi : Inv s h l) (hl : l .threadQueue = a :: rest)
    (links : Nat → Option Nat) (qs : QueueName → Queue Nat) :
    Resumes s (((s.left (l .killQueue)).relink links qs).resume a) a := by
  refine resume_resumes _ ?_ (hi.shape.cleanedLast_context (Or.inr (by simp [hl])))
  cases l .killQueue <;> rfl

/-- The context is the first of those that were saved and have not been loaded. -/
theorem oldest (hi : Inv s h l) (hl : l .threadQueue = a :: rest) :
    h.waits[s.resumed.length]? = some (s.tid a, (s.context a).jb) := by
  rw [← hi.waits, hl]
  simp

/-- The current thread, if there is one, is behind the others. -/
theorem yield (hi : Inv s h l) (hl : l .threadQueue = a :: rest) {links : Nat → Option Nat}
    {qs : QueueName → Queue Nat}
    (hs : Shape (((s.save jb).relink links qs).resume a) [a]
      (Function.update l .threadQueue (rest ++ s.curTc.toList))) :
    Inv (((s.save jb).relink links qs).resume a) (h.next threadEntry s 0 (.yield jb))
      (Function.update l .threadQueue (rest ++ s.curTc.toList)) := by
  have hcontext : ∀ b, (((s.save jb).relink links qs).resume a).context b =
      if s.curTc = some b then { s.context b with jb := jb } else s.context b :=
    fun _ => save_context
  have htid : (((s.save jb).relink links qs).resume a).tid = s.tid := by
    funext b
    unfold Threads.tid
    rw [hcontext]
    split <;> rfl
  have hcalls : ∀ b, ((((s.save jb).relink links qs).resume a).context b).calls =
      (s.context b).calls := by
    intro b
    rw [hcontext]
    split <;> rfl
  have hwaiting : ∀ b, b ∈ l .threadQueue →
      (((s.save jb).relink links qs).resume a).context b = s.context b :=
    fun b hb => hi.save_waiting hb
  have hfirst : (s.queues .threadQueue).first = some a := by
    have hholds := (hi.shape.holds .threadQueue).chain
    rw [hl] at hholds
    exact hholds.1
  have hqueue : Function.update l .threadQueue (rest ++ s.curTc.toList) .threadQueue =
      rest ++ s.curTc.toList := Function.update_self _ _ _
  have hkill : Function.update l .threadQueue (rest ++ s.curTc.toList) .killQueue =
      l .killQueue := Function.update_of_ne (by decide) _ _
  have hresumed := (hi.yield_resumes jb hl links qs).resumed
  have hsame : (((s.save jb).relink links qs).resume a).maxTid = s.maxTid ∧
      (((s.save jb).relink links qs).resume a).called = s.called := by
    unfold Threads.save
    split <;> exact ⟨rfl, rfl⟩
  have hwaits := hi.waits
  rw [hl, List.map_cons] at hwaits
  have hrest : rest.map (fun b => (s.tid b,
      ((((s.save jb).relink links qs).resume a).context b).jb)) =
      rest.map (fun b => (s.tid b, (s.context b).jb)) :=
    List.map_congr_left (fun b hb => by rw [hwaiting b (by simp [hl, hb])])
  -- the history grows by the context of the current thread, if there is one
  have hhistory : h.next threadEntry s 0 (.yield jb) =
      { h with waits := h.waits ++ s.curTc.toList.map (fun cur => (s.tid cur, jb)) } := by
    unfold History.next
    rw [hfirst]
    cases s.curTc with
    | none =>
        rw [Option.toList_none, List.map_nil, List.append_nil]
    | some cur => rfl
  have hperm : (everyone [a] (Function.update l .threadQueue (rest ++ s.curTc.toList))).Perm
      (everyone s.curTc.toList l) := by
    unfold everyone
    rw [hqueue, hkill, hl]
    refine List.Perm.trans ?_ List.perm_append_comm
    simp only [List.append_assoc, List.cons_append]
    exact List.Perm.cons a (List.Perm.append_left rest List.perm_append_comm)
  rw [hhistory]
  refine ⟨hs, ?_, fun tid hmem => ?_, hi.created, ?_, ?_, ?_, ?_, fun b hb => ?_,
    hi.unregistered⟩
  · rw [hsame.1]
    exact hi.maxTid
  · rw [hsame.1]
    exact hi.below tid hmem
  · rw [hqueue, htid]
    refine List.Perm.trans (List.Perm.append_right _ (List.Perm.map _ ?_)) hi.living
    unfold Threads.living
    rw [hl]
    show (a :: (rest ++ s.curTc.toList)).Perm _
    rw [← List.cons_append]
    exact List.perm_append_comm
  · have hlast : s.curTc.toList.map (fun b => (s.tid b,
        ((((s.save jb).relink links qs).resume a).context b).jb)) =
        s.curTc.toList.map (fun cur => (s.tid cur, jb)) :=
      List.map_congr_left (fun cur hcur => by
        rw [hcontext, if_pos (Option.mem_toList.mp hcur)])
    rw [hqueue, htid, hresumed, List.map_append, hrest, hlast, ← hwaits]
    simp only [List.append_assoc, List.cons_append, List.nil_append]
  · rw [hsame.2]
    exact hi.called
  · rw [hkill, htid]
    exact hi.last
  · rw [hcalls, htid]
    exact hi.registered b (hperm.mem_iff.mp hb)

/-- The functions of the thread that has halted before are called. -/
theorem cleanedLast_called (hi : Inv s h l) :
    (s.cleanedLast (l .killQueue)).called = h.halted.flatMap h.calls := by
  have hlast := hi.last
  match hl : l .killQueue with
  | [] =>
      rw [hl] at hlast
      have hnone : h.halted = [] := by
        cases hhalted : h.halted.getLast? with
        | none => exact List.getLast?_eq_none_iff.mp hhalted
        | some tid =>
            rw [hhalted] at hlast
            cases hlast
      have hcalled := hi.called
      rw [hnone] at hcalled ⊢
      exact hcalled
  | b :: k =>
      have hb : b ∈ everyone s.curTc.toList l :=
        mem_everyone.mpr (Or.inr ⟨.killQueue, by simp [hl]⟩)
      rw [hl, List.map_cons] at hlast
      have hmem : h.halted.getLast? = some (s.tid b) := by
        rw [← Option.mem_toList, ← hlast]
        exact List.mem_cons_self
      have hsplit := List.dropLast_append_getLast? (s.tid b) hmem
      show s.called ++ (s.context b).calls = _
      conv_rhs => rw [← hsplit, List.flatMap_append, List.flatMap_singleton]
      rw [hi.called, hi.registered b hb]

/-- A thread that has halted is the last one. -/
theorem halt (hi : Inv s h l) (hcur : s.curTc = some cur) (hl : l .threadQueue = a :: rest)
    {links : Nat → Option Nat} {qs : QueueName → Queue Nat}
    (hs : Shape (((s.left (l .killQueue)).relink links qs).resume a) [a]
      (Function.update (Function.update l .killQueue [cur]) .threadQueue rest)) :
    Inv (((s.left (l .killQueue)).relink links qs).resume a)
      (h.next threadEntry s 0 (.halt jb))
      (Function.update (Function.update l .killQueue [cur]) .threadQueue rest) := by
  have hcontext : ∀ b, b ∈ s.living (l .threadQueue) →
      (((s.left (l .killQueue)).relink links qs).resume a).context b = s.context b :=
    fun b hb => hi.shape.cleanedLast_context (List.mem_append.mp hb)
  have htid : ∀ b, b ∈ s.living (l .threadQueue) →
      (((s.left (l .killQueue)).relink links qs).resume a).tid b = s.tid b := by
    intro b hb
    unfold Threads.tid
    rw [hcontext b hb]
  have hmemcur : cur ∈ s.living (l .threadQueue) := by simp [Threads.living, hcur]
  have hmemq : ∀ b, b ∈ a :: rest → b ∈ s.living (l .threadQueue) := by
    intro b hb
    unfold Threads.living
    rw [hl]
    exact List.mem_append_right _ hb
  have hmema : a ∈ s.living (l .threadQueue) := hmemq a List.mem_cons_self
  have hqueue : Function.update (Function.update l .killQueue [cur]) .threadQueue rest
      .threadQueue = rest := Function.update_self _ _ _
  have hkill : Function.update (Function.update l .killQueue [cur]) .threadQueue rest
      .killQueue = [cur] := by
    rw [Function.update_of_ne (by decide), Function.update_self]
  have hhistory : h.next threadEntry s 0 (.halt jb) =
      { h with halted := h.halted ++ [s.tid cur] } := by
    unfold History.next
    rw [hcur]
  have hmax : (((s.left (l .killQueue)).relink links qs).resume a).maxTid = s.maxTid := by
    cases l .killQueue <;> rfl
  have hwaits := hi.waits
  rw [hl, List.map_cons] at hwaits
  rw [hhistory]
  refine ⟨hs, ?_, fun tid hmem => ?_, hi.created, ?_, ?_, ?_, ?_, fun b hb => ?_,
    hi.unregistered⟩
  · rw [hmax]
    exact hi.maxTid
  · rw [hmax]
    exact hi.below tid hmem
  · rw [hqueue]
    have hmap : (((((s.left (l .killQueue)).relink links qs).resume a).living rest).map
        (((s.left (l .killQueue)).relink links qs).resume a).tid) = (a :: rest).map s.tid :=
      List.map_congr_left (fun b hb => htid b (hmemq b hb))
    have hliving := hi.living
    unfold Threads.living at hliving
    rw [hcur, hl] at hliving
    rw [hmap]
    refine List.Perm.trans ?_ hliving
    show ((a :: rest).map s.tid ++ (h.halted ++ [s.tid cur])).Perm
      (s.tid cur :: ((a :: rest).map s.tid ++ h.halted))
    rw [← List.append_assoc]
    exact List.perm_append_singleton _ _
  · rw [hqueue, (hi.halt_resumes hl links qs).resumed, ← hwaits, List.append_assoc]
    refine congrArg (s.resumed ++ ·) (congrArg _ (List.map_congr_left (fun b hb => ?_)))
    have hb' := hmemq b (List.mem_cons_of_mem a hb)
    rw [htid b hb', hcontext b hb']
  · rw [List.dropLast_concat]
    exact hi.cleanedLast_called
  · rw [hkill, List.getLast?_concat, List.map_singleton, htid cur hmemcur]
    rfl
  · have hmem : b ∈ s.living (l .threadQueue) := by
      unfold everyone at hb
      rw [hqueue, hkill] at hb
      rcases List.mem_append.mp hb with hba | hb
      · exact List.mem_singleton.mp hba ▸ hmema
      · rcases List.mem_append.mp hb with hb | hbc
        · exact hmemq b (List.mem_cons_of_mem a hb)
        · exact List.mem_singleton.mp hbc ▸ hmemcur
    have hin : b ∈ everyone s.curTc.toList l := by
      unfold everyone
      rw [← List.append_assoc]
      exact List.mem_append_left _ hmem
    rw [htid b hmem, hcontext b hmem]
    exact hi.registered b hin

/-! ## The blocks of the threads -/

theorem needs (hi : Inv s h l) (hb : s.Needs b) :
    ∃ a, a ∈ s.living (l .threadQueue) ∧ (b = a ∨ b = (s.context a).stackBottom) := by
  obtain ⟨q, hq, hb⟩ := hb
  obtain rfl : q = l .threadQueue := hq.unique (hi.shape.holds .threadQueue).chain
  exact hb

theorem mem_everyone_of_living (ha : a ∈ s.living (l .threadQueue)) :
    a ∈ everyone s.curTc.toList l := by
  unfold everyone
  rw [← List.append_assoc]
  exact List.mem_append_left _ ha

/-- What a thread needs is in use. -/
theorem not_needs (hi : Inv s h l) (hb : s.heap b = none) : ¬ s.Needs b := by
  intro hneeds
  obtain ⟨a, ha, hab⟩ := hi.needs hneeds
  have hthread := hi.shape.threads a (mem_everyone_of_living ha)
  rcases hab with rfl | rfl
  · rw [hthread.context_heap] at hb
    cases hb
  · rw [hthread.stack] at hb
    cases hb

/-- Nobody needs what the thread that has halted leaves behind. -/
theorem not_needs_last (hi : Inv s h l) (ha : a ∈ l .killQueue)
    (hb : b = (s.context a).stackBottom ∨ b = a) : ¬ s.Needs b := by
  intro hneeds
  obtain ⟨c, hc, hbc⟩ := hi.needs hneeds
  have hmem := mem_everyone_of_living hc
  have hmema : a ∈ everyone s.curTc.toList l := mem_everyone.mpr (Or.inr ⟨_, ha⟩)
  have hthread := hi.shape.threads c hmem
  have hathread := hi.shape.threads a hmema
  have hne : c ≠ a := by
    rintro rfl
    rcases List.mem_append.mp hc with hcur | hq
    · exact hi.shape.held_apart hcur ha
    · exact hi.shape.apart (by decide) hq ha
  rcases hb with rfl | rfl <;> rcases hbc with heq | heq
  · exact hthread.stack_ne hathread heq
  · exact hne (hi.shape.ownStack a c hmema hmem heq).symm
  · exact hne heq.symm
  · exact hathread.stack_ne hthread heq.symm

/-- What `thread_halt` frees. -/
theorem cleanedLast_freed (l : QueueName → List Nat) :
    ∃ bs, (s.cleanedLast (l .killQueue)).freed = s.freed ++ bs ∧
      ∀ b, b ∈ bs → (s.cleanedLast (l .killQueue)).heap b = none ∧
        ∃ a, a ∈ l .killQueue ∧ (b = (s.context a).stackBottom ∨ b = a) := by
  cases l .killQueue with
  | nil => exact ⟨[], (List.append_nil _).symm, fun _ hb => absurd hb List.not_mem_nil⟩
  | cons a k =>
      refine ⟨[(s.context a).stackBottom, a], rfl, fun b hb => ⟨?_, a, List.mem_cons_self, ?_⟩⟩
      · show Function.update (Function.update s.heap (s.context a).stackBottom none) a none b = none
        by_cases hba : b = a
        · rw [hba, Function.update_self]
        · rw [Function.update_of_ne hba]
          rcases List.mem_cons.mp hb with rfl | hb
          · exact Function.update_self _ _ _
          · exact absurd (List.mem_singleton.mp hb) hba
      · simpa using hb

/-! ## The steps -/

theorem resumes_sound (hi : Inv s h l) (hl : l .threadQueue = a :: rest) (hr : Resumes s t a) :
    ∃ tid saved cur, h.waits[s.resumed.length]? = some (tid, saved) ∧
      t.resumed = s.resumed ++ [(tid, saved)] ∧ t.regs = saved ∧
      t.curTc = some cur ∧ t.tid cur = tid :=
  ⟨s.tid a, (s.context a).jb, a, hi.oldest hl, hr.resumed, hr.regs, hr.curTc, hr.tid⟩

/-- A call that gives the processor to nobody. -/
theorem stepSound_of_stays {c : Call} (hyield : ∀ jb, c ≠ .yield jb) (hhalt : ∀ jb, c ≠ .halt jb)
    (hfreed : ∃ bs, t.freed = s.freed ++ bs ∧ ∀ b, b ∈ bs → ¬ s.Needs b ∧ ¬ t.Needs b) :
    StepSound s t h c where
  freed := hfreed
  resumes := fun jb hc => hc.elim (fun hc => absurd hc (hyield jb)) (fun hc => absurd hc (hhalt jb))
  alone := fun jb hc => absurd hc (hyield jb)
  called := fun jb hc => absurd hc (hhalt jb)

/-- What a call leaves. -/
def After (threadEntry : U32) (s : Threads) (h : History) (c : Call) : Post Threads Int where
  ret := fun r t => (∃ l', Inv t (h.next threadEntry s r c) l') ∧ StepSound s t h c
  exit := fun t => (∃ jb, c = .halt jb) ∧ (s.queues .threadQueue).first = none ∧
    StepSound s t h c
  stop := fun _ => (∃ entry arg, c = .create entry arg) ∧ s.maxTid + 1 = ~~~0#32

theorem after_create (hi : Inv s h l) :
    wp ((Call.create entry arg).run threadEntry) (After threadEntry s h (.create entry arg)) s := by
  unfold wp Call.run
  rcases threadCreate_spec threadEntry entry arg hi.shape with
    ⟨t, hrun, ht, ⟨bs, hfreed, hbs⟩, hmax⟩ | ⟨t, hrun, hstop⟩ | ⟨t, a, st, hrun, hc, hne, hs⟩
  · -- it fails
    have hi' := hi.untouched ht hmax
    rw [hrun]
    refine ⟨⟨l, hi'⟩, stepSound_of_stays nofun nofun ⟨bs, hfreed, fun b hb =>
      ⟨hi.not_needs (hbs b hb), hi'.not_needs ?_⟩⟩⟩
    rw [ht.heap]
    exact hbs b hb
  · rw [hrun]
    exact ⟨⟨entry, arg, rfl⟩, hstop⟩
  · rw [hrun]
    refine ⟨⟨_, hi.create hc hne hs⟩, stepSound_of_stays nofun nofun
      ⟨[], ?_, fun _ hb => absurd hb List.not_mem_nil⟩⟩
    rw [hc.freed, List.append_nil]

theorem after_onhalt (hi : Inv s h l) (hcur : s.curTc = some cur) :
    wp ((Call.onhalt fn).run threadEntry) (After threadEntry s h (.onhalt fn)) s := by
  have hsame : ∀ t : Threads, t.freed = s.freed → StepSound s t h (.onhalt fn) := by
    intro t ht
    refine stepSound_of_stays nofun nofun ⟨[], ?_, fun _ hb => absurd hb List.not_mem_nil⟩
    rw [ht, List.append_nil]
  unfold wp Call.run
  rcases threadOnhalt_spec hi.shape hcur fn with hrun | hrun
  · have hnext : h.next threadEntry s (-eNoMem) (.onhalt fn) = h := by
      unfold History.next
      rw [hcur]
      rfl
    rw [hrun]
    refine ⟨⟨l, ?_⟩, hsame s rfl⟩
    rw [hnext]
    exact hi
  · rw [hrun]
    exact ⟨⟨l, hi.onhalt hcur⟩, hsame _ rfl⟩

theorem after_yield (hi : Inv s h l) :
    wp ((Call.yield jb).run threadEntry) (After threadEntry s h (.yield jb)) s := by
  unfold wp Call.run
  cases hl : l .threadQueue with
  | nil =>
      -- nobody waits
      have hfirst := (hi.shape.holds .threadQueue).nil_iff.mpr hl
      have hnext : h.next threadEntry s 0 (.yield jb) = h := by
        unfold History.next
        rw [hfirst]
        cases s.curTc <;> rfl
      rw [Prog.run_bind_ret (threadYield_none hfirst)]
      refine ⟨⟨l, hnext.symm ▸ hi⟩, ⟨[], (List.append_nil _).symm,
        fun _ hb => absurd hb List.not_mem_nil⟩, fun _ _ hne => absurd hfirst hne,
        fun _ _ _ => rfl, ?_⟩
      rintro jb' hc
      cases hc
  | cons a rest =>
      obtain ⟨links, qs, hrun, hs⟩ := threadYield_some jb hi.shape hl
      have hfirst : (s.queues .threadQueue).first ≠ none := fun hnone => by
        rw [(hi.shape.holds .threadQueue).nil_iff.mp hnone] at hl
        cases hl
      have hfreed : (((s.save jb).relink links qs).resume a).freed = s.freed := by
        unfold Threads.save
        cases s.curTc <;> rfl
      rw [Prog.run_bind_ret hrun]
      refine ⟨⟨_, hi.yield hl hs⟩, ⟨[], ?_, fun _ hb => absurd hb List.not_mem_nil⟩,
        fun _ _ _ => hi.resumes_sound hl (hi.yield_resumes jb hl links qs),
        fun _ _ hnone => absurd hnone hfirst, ?_⟩
      · rw [List.append_nil]
        exact hfreed
      · rintro jb' hc
        cases hc

theorem after_halt (hi : Inv s h l) (hcur : s.curTc = some cur) :
    wp ((Call.halt jb).run threadEntry) (After threadEntry s h (.halt jb)) s := by
  obtain ⟨hlast, hsome⟩ := threadHalt_spec jb hi.shape hcur hi.kill
  obtain ⟨bs, hfreed, hbs⟩ := cleanedLast_freed (s := s) l
  have hneeds : ∀ b, b ∈ bs → ¬ s.Needs b := fun b hb => by
    obtain ⟨-, a, ha, hba⟩ := hbs b hb
    exact hi.not_needs_last ha hba
  unfold wp Call.run
  cases hl : l .threadQueue with
  | nil =>
      have hfirst := (hi.shape.holds .threadQueue).nil_iff.mpr hl
      obtain ⟨links, qs, hrun, hnone⟩ := hlast hl
      rw [Prog.run_bind, hrun]
      refine ⟨⟨jb, rfl⟩, hfirst, ⟨bs, hfreed, fun b hb => ⟨hneeds b hb, ?_⟩⟩,
        fun _ _ hne => absurd hfirst hne, fun _ hc => (nomatch hc),
        fun _ _ => hi.cleanedLast_called⟩
      -- nobody is left
      rintro ⟨q, hq, a, ha, -⟩
      have hempty : q = [] := by
        cases q with
        | nil => rfl
        | cons c q => exact absurd (hnone.symm.trans hq.1) (by simp)
      rw [hempty] at ha
      exact absurd ha List.not_mem_nil
  | cons a rest =>
      obtain ⟨links, qs, hrun, hs⟩ := hsome a rest hl
      have hi' : Inv _ (h.next threadEntry s 0 (.halt jb)) _ := hi.halt hcur hl hs
      rw [Prog.run_bind_ret hrun]
      exact ⟨⟨_, hi'⟩, ⟨bs, hfreed, fun b hb => ⟨hneeds b hb, hi'.not_needs (hbs b hb).1⟩⟩,
        fun _ _ _ => hi.resumes_sound hl (hi.halt_resumes hl links qs), fun _ hc => (nomatch hc),
        fun _ _ => hi.cleanedLast_called⟩

theorem after (hi : Inv s h l) {c : Call} (hc : c.Allowed s) :
    wp (c.run threadEntry) (After threadEntry s h c) s := by
  have hcur : (∀ entry arg, c ≠ .create entry arg) → (∀ jb, c ≠ .yield jb) →
      ∃ cur, s.curTc = some cur := by
    intro hcreate hyield
    refine Option.ne_none_iff_exists'.mp (fun hnone => ?_)
    rcases hc hnone with ⟨entry, arg, heq⟩ | ⟨jb, heq⟩
    · exact hcreate entry arg heq
    · exact hyield jb heq
  cases c with
  | create entry arg => exact hi.after_create
  | onhalt fn =>
      obtain ⟨cur, hcur⟩ := hcur (fun _ _ h => nomatch h) (fun _ h => nomatch h)
      exact hi.after_onhalt hcur
  | yield jb => exact hi.after_yield
  | halt jb =>
      obtain ⟨cur, hcur⟩ := hcur (fun _ _ h => nomatch h) (fun _ h => nomatch h)
      exact hi.after_halt hcur

end Inv

theorem Runs.inv (hr : Runs threadEntry s h) : ∃ l, Inv s h l := by
  induction hr with
  | start hs => exact ⟨_, hs.inv⟩
  | call c _ hc hrun ih =>
      obtain ⟨l, hi⟩ := ih
      exact (wp_ret (hi.after hc) hrun).1

/-- However the threads are created, yield and halt: the ones that have not halted are current
or wait, each once; they go on in the order in which they began to wait, with the contexts that
they saved; the functions of a thread that has halted are called, once, when the next one
halts; and no block of a thread that is current or waits is freed. -/
theorem threads_sound (hr : Runs threadEntry s h) :
    (∃ q, Sound s h q) ∧ ∀ c : Call, c.Allowed s →
      wp (c.run threadEntry)
        ⟨fun _ t => StepSound s t h c,
          fun t => (∃ jb, c = .halt jb) ∧ (s.queues .threadQueue).first = none ∧
            StepSound s t h c,
          fun _ => (∃ entry arg, c = .create entry arg) ∧ s.maxTid + 1 = ~~~0#32⟩ s := by
  obtain ⟨l, hi⟩ := hr.inv
  exact ⟨⟨_, hi.sound⟩, fun c hc =>
    wp_mono (hi.after hc) (fun _ _ h => h.2) (fun _ h => h) (fun _ h => h)⟩

/-- `thread_init` has run, and `malloc` finds one block after another. -/
def idle : Threads where
  maxTid := 0#32
  curTc := none
  queues := fun _ => ⟨none, none⟩
  heap := fun _ => none
  queueLink := fun _ => none
  regs := entryContext 0#32 0
  mallocs := fun k => some (4096 * (k + 1))
  called := []
  freed := []
  resumed := []

theorem idle_started : Started idle := ⟨rfl, rfl, fun _ => rfl, rfl, rfl, rfl⟩

/-- Two threads are created, and the first one runs, registers a function and halts. -/
theorem threads_sound_two : ∃ s h, Runs 0x800000#32 s h ∧ h.created = [0#32, 1#32] ∧
    h.halted = [0#32] ∧ (∃ q, Sound s h q) ∧ ∀ c : Call, c.Allowed s →
      wp (c.run 0x800000#32)
        ⟨fun _ t => StepSound s t h c,
          fun t => (∃ jb, c = .halt jb) ∧ (s.queues .threadQueue).first = none ∧
            StepSound s t h c,
          fun _ => (∃ entry arg, c = .create entry arg) ∧ s.maxTid + 1 = ~~~0#32⟩ s := by
  have h0 : Runs 0x800000#32 idle .start := Runs.start idle_started
  have h1 := Runs.call (.create 1#32 0#32) h0 (fun _ => Or.inl ⟨_, _, rfl⟩) rfl
  have h2 := Runs.call (.create 2#32 0#32) h1 (fun _ => Or.inl ⟨_, _, rfl⟩) rfl
  have h3 := Runs.call (.yield (entryContext 0#32 0)) h2 (fun _ => Or.inr ⟨_, rfl⟩) rfl
  have h4 := Runs.call (.onhalt 3#32) h3 (fun h => nomatch h) rfl
  have h5 := Runs.call (.halt (entryContext 0#32 0)) h4 (fun h => nomatch h) rfl
  obtain ⟨hsound, hnext⟩ := threads_sound h5
  exact ⟨_, _, h5, rfl, rfl, hsound, hnext⟩

end UserThreads

end Jos

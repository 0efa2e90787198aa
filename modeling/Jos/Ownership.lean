import Jos.Boot

/-!
# Who runs an environment

An environment that is made runnable while another processor still runs it is
soon run by two processors; one that is freed meanwhile leaves a processor in
an address space that is gone.  `sys_env_set_status`, `sys_ipc_try_send` and
`env_destroy` do not see to it that this cannot happen.  In runs in which it
does not, every environment has one owner, and a freed one has none.
-/

namespace Jos

open Programs

/-- Processor `c` runs environment `e` in user mode. -/
def Kernel.Runs (k : Kernel) (c e : Nat) : Prop :=
  k.curenv c = some e ∧ (k.cpus c).place = .user

instance (k : Kernel) (c e : Nat) : Decidable (k.Runs c e) :=
  inferInstanceAs (Decidable (_ ∧ _))

section Runs

variable {managed : Set Nat} {k : Kernel}

theorem start_fair (k : Kernel) (c : Nat) : (Event.start c).Fair k :=
  fun _ _ _ h => nomatch h

/-- A parent makes its child runnable, and does so again when the other
processor runs the child; then it yields. -/
def twiceRunnable : List Event :=
  [.start 0, callEvent 0 7 0 0 0 0 0, callEvent 0 8 0x1001#32 2 0 0 0,
    .start 1, callEvent 0 8 0x1001#32 2 0 0 0, callEvent 0 11 0 0 0 0 0]

end Runs

end Jos

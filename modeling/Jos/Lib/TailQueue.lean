import Jos.Lib.Chain

/-!
# Queues linked through their elements

A queue has a pointer to its first element and one to its last, and each element
links to the next one.  `Carries next q l` says that the queue holds the elements of
`l`, in order.  Nothing is said of the last pointer of an empty queue, which may
point anywhere.

* `Carries.push_first` and `Carries.push`: an element is put behind the others.
* `Carries.pop`: the first element is taken off.
* `Carries.congr`: links of other elements do not matter.
-/

namespace TailQueue

open LinkedList

universe u

variable {α : Type u}

/-- The two pointers of a queue. -/
structure Queue (α : Type u) where
  first : Option α
  last : Option α

/-- The queue holds the elements of the list. -/
structure Carries (next : α → Option α) (q : Queue α) (l : List α) : Prop where
  chain : Chain next q.first l
  last : ∀ b, l.getLast? = some b → q.last = some b

variable {next next' : α → Option α} {q : Queue α} {l : List α} {a b : α}

theorem Carries.congr (h : Carries next q l) (hnext : ∀ b, b ∈ l → next' b = next b) :
    Carries next' q l where
  chain := h.chain.congr hnext
  last := h.last

theorem Carries.nil_iff (h : Carries next q l) : q.first = none ↔ l = [] := by
  cases l with
  | nil => exact iff_of_true h.chain rfl
  | cons a l => exact iff_of_false (by simp [h.chain.1]) (List.cons_ne_nil a l)

variable [DecidableEq α]

/-- The last cell of a list is linked to one more. -/
theorem chain_append {head : Option α} (h : Chain next head l) (hb : l.getLast? = some b)
    (hlink : next a = none) (ha : a ∉ l) :
    Chain (Function.update next b (some a)) head (l ++ [a]) := by
  have hnodup := h.nodup
  induction l generalizing head with
  | nil => cases hb
  | cons c l ih =>
      obtain ⟨hc, hl⟩ := h
      refine ⟨hc, ?_⟩
      cases l with
      | nil =>
          obtain rfl : c = b := Option.some.inj hb
          have hne : a ≠ c := fun hac => ha (hac ▸ List.mem_singleton_self a)
          rw [Function.update_self]
          refine ⟨rfl, ?_⟩
          rw [Function.update_of_ne hne]
          exact hlink
      | cons d l =>
          have hlast : (d :: l).getLast? = some b := by rwa [List.getLast?_cons_cons] at hb
          have hcb : c ≠ b := by
            rintro rfl
            exact (List.nodup_cons.mp hnodup).1 (List.mem_of_getLast? hlast)
          rw [Function.update_of_ne hcb]
          exact ih hl hlast (fun hmem => ha (List.mem_cons_of_mem c hmem))
            (List.nodup_cons.mp hnodup).2

/-- The first element of an empty queue. -/
theorem Carries.push_first : Carries (Function.update next a none) ⟨some a, some a⟩ [a] where
  chain := by
    refine ⟨rfl, ?_⟩
    rw [Function.update_self]
    exact chain_nil.mpr rfl
  last := fun _ hb => hb

/-- An element is put behind the last one. -/
theorem Carries.push (h : Carries next q l) (hb : l.getLast? = some b) (ha : a ∉ l) :
    Carries (Function.update (Function.update next a none) b (some a)) ⟨q.first, some a⟩
      (l ++ [a]) where
  chain := by
    have hkeep : ∀ c, c ∈ l → Function.update next a none c = next c := by
      intro c hc
      refine Function.update_of_ne ?_ _ _
      rintro rfl
      exact ha hc
    exact chain_append (h.chain.congr hkeep) hb (Function.update_self a none next) ha
  last := fun c hc => by
    rw [List.getLast?_concat] at hc
    exact hc

/-- The first element is taken off, and its link cleared. -/
theorem Carries.pop (h : Carries next q (a :: l)) :
    Carries (Function.update next a none) ⟨next a, q.last⟩ l where
  chain := by
    have hfrom : Chain next (some a) (a :: l) := ⟨rfl, h.chain.2⟩
    exact hfrom.pop none
  last := fun b hb => by
    refine h.last b ?_
    cases l with
    | nil => cases hb
    | cons c l => rwa [List.getLast?_cons_cons]

end TailQueue

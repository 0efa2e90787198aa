import Jos.Lib.Chain

/-!
# Linked lists that are built at their end

A list can be built through a pointer to its last link, which is where the next cell is entered:
the variable with the head while there is no cell, the link of the last cell afterwards.  Until the
last link is set the list is open.  `Visits next head l` says that following `next` from `head`
visits the cells of `l` first, and `after next head l` is where it goes on.

* `Visits.congr`: links of other cells do not matter.
* `Visits.store`: the last link is set.
* `Visits.push`: a list that goes on with a cell has this cell too.
* `Visits.chain`: a list that goes on with one that ends.
-/

namespace LinkedList

universe u

variable {α : Type u}

/-- Following `next` from `head` visits the cells of `l` first. -/
def Visits (next : α → Option α) : Option α → List α → Prop
  | _, [] => True
  | head, a :: l => head = some a ∧ Visits next (next a) l

/-- Where a list goes on behind the cells of `l`. -/
def after (next : α → Option α) : Option α → List α → Option α
  | head, [] => head
  | _, a :: l => after next (next a) l

variable {next next' : α → Option α} {head v : Option α} {l l' : List α} {a b : α}

@[simp] theorem visits_nil : Visits next head [] := trivial

@[simp] theorem after_nil : after next head [] = head := rfl

@[simp] theorem visits_cons :
    Visits next head (a :: l) ↔ head = some a ∧ Visits next (next a) l := Iff.rfl

@[simp] theorem after_cons : after next head (a :: l) = after next (next a) l := rfl

/-- Links outside the list do not matter. -/
theorem Visits.congr (h : Visits next head l) (hnext : ∀ b, b ∈ l → next' b = next b) :
    Visits next' head l := by
  induction l generalizing head with
  | nil => exact visits_nil
  | cons a l ih =>
      obtain ⟨ha, hl⟩ := h
      refine ⟨ha, ?_⟩
      rw [hnext a List.mem_cons_self]
      exact ih hl (fun b hb => hnext b (List.mem_cons_of_mem a hb))

/-- A list that goes on with a cell has this one too. -/
theorem Visits.push (h : Visits next head l) (ha : after next head l = some a) :
    Visits next head (l ++ [a]) := by
  induction l generalizing head with
  | nil => exact ⟨ha, visits_nil⟩
  | cons b l ih =>
      obtain ⟨hb, hl⟩ := h
      exact ⟨hb, ih hl ha⟩

/-- A list that goes on with one that ends. -/
theorem Visits.chain (h : Visits next head l) (h' : Chain next (after next head l) l') :
    Chain next head (l ++ l') := by
  induction l generalizing head with
  | nil => exact h'
  | cons a l ih =>
      obtain ⟨ha, hl⟩ := h
      exact ⟨ha, ih hl h'⟩

/-- The last link is set. -/
theorem Visits.store [DecidableEq α] (h : Visits next head l) (hnodup : l.Nodup)
    (hb : l.getLast? = some b) :
    Visits (Function.update next b v) head l ∧ after (Function.update next b v) head l = v := by
  induction l generalizing head with
  | nil => cases hb
  | cons a l ih =>
      obtain ⟨ha, hl⟩ := h
      obtain ⟨hmem, hrest⟩ := List.nodup_cons.mp hnodup
      cases l with
      | nil =>
          obtain rfl : a = b := Option.some.inj hb
          rw [after_cons, after_nil, Function.update_self]
          exact ⟨⟨ha, visits_nil⟩, rfl⟩
      | cons c l =>
          have hlast : (c :: l).getLast? = some b := by rwa [List.getLast?_cons_cons] at hb
          have hne : a ≠ b := by
            rintro rfl
            exact hmem (List.mem_of_getLast? hlast)
          rw [visits_cons, after_cons, Function.update_of_ne hne]
          obtain ⟨hvisits, hafter⟩ := ih hl hrest hlast
          exact ⟨⟨ha, hvisits⟩, hafter⟩

end LinkedList

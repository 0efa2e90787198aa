import Mathlib.Data.List.Nodup
import Mathlib.Logic.Function.Basic

/-!
# Singly linked lists

A linked list is a head and a map from each cell to the next one.
`Chain next head l` says that following `next` from `head` visits exactly the
cells of `l`, in order, and then ends.  A chain is finite and acyclic by
construction, so its cells are pairwise distinct (`Chain.nodup`), and it is
determined by the head (`Chain.unique`).

`Met` says what is met on the way whether or not the list ends.

The two operations of a free list are `Chain.push` and `Chain.pop`;
`Chain.range'` is the list that links the cells of an array in order.
-/

namespace LinkedList

universe u

variable {α : Type u}

/-- Following `next` from `head` visits exactly the cells of `l`. -/
def Chain (next : α → Option α) : Option α → List α → Prop
  | head, [] => head = none
  | head, a :: l => head = some a ∧ Chain next (next a) l

variable {next next' : α → Option α} {head : Option α} {l l' : List α} {a b : α}

@[simp] theorem chain_nil :
    Chain next head [] ↔ head = none := Iff.rfl

@[simp] theorem chain_cons :
    Chain next head (a :: l) ↔
      head = some a ∧ Chain next (next a) l := Iff.rfl

/-- The head determines the list. -/
theorem Chain.unique
    (h : Chain next head l) (h' : Chain next head l') :
    l = l' := by
  induction l generalizing head l' with
  | nil =>
      cases l' with
      | nil => rfl
      | cons b l' =>
          rw [chain_nil] at h
          rw [chain_cons, h] at h'
          exact absurd h'.1 (by simp)
  | cons a l ih =>
      cases l' with
      | nil =>
          rw [chain_nil] at h'
          rw [chain_cons, h'] at h
          exact absurd h.1 (by simp)
      | cons b l' =>
          obtain ⟨ha, hl⟩ := h
          obtain ⟨hb, hl'⟩ := h'
          obtain rfl : a = b := Option.some.inj (ha.symm.trans hb)
          rw [ih hl hl']

/-- Links outside the list do not matter. -/
theorem Chain.congr
    (h : Chain next head l)
    (hnext : ∀ b, b ∈ l → next' b = next b) :
    Chain next' head l := by
  induction l generalizing head with
  | nil => exact h
  | cons a l ih =>
      obtain ⟨ha, hl⟩ := h
      refine ⟨ha, ?_⟩
      rw [hnext a List.mem_cons_self]
      exact ih hl (fun b hb => hnext b (List.mem_cons_of_mem a hb))

/-- A cell of the list starts the rest of the list from there on. -/
theorem Chain.suffix
    (h : Chain next head l) (ha : a ∈ l) :
    ∃ r, Chain next (some a) (a :: r) ∧ r.length < l.length := by
  induction l generalizing head with
  | nil => exact absurd ha List.not_mem_nil
  | cons b l ih =>
      obtain ⟨hb, hl⟩ := h
      rcases List.mem_cons.mp ha with rfl | ha
      · exact ⟨l, ⟨rfl, hl⟩, by simp⟩
      · obtain ⟨r, hr, hlen⟩ := ih hl ha
        exact ⟨r, hr, by simp only [List.length_cons]; omega⟩

/-- A linked list that ends visits no cell twice. -/
theorem Chain.nodup (h : Chain next head l) : l.Nodup := by
  induction l generalizing head with
  | nil => exact List.nodup_nil
  | cons a l ih =>
      refine List.nodup_cons.mpr ⟨fun ha => ?_, ih h.2⟩
      -- a second visit of `a` would start a shorter list from the same cell
      obtain ⟨r, hr, hlen⟩ := h.2.suffix ha
      have hfrom : Chain next (some a) (a :: l) := ⟨rfl, h.2⟩
      have heq : a :: r = a :: l := hr.unique hfrom
      have : r.length = l.length := by
        rw [(List.cons.inj heq).2]
      omega

/-- The cells that are met by following `next` from `head`, whether or not the
list ends. -/
inductive Met (next : α → Option α) (head : Option α) : α → Prop where
  | head {a : α} (h : head = some a) : Met next head a
  | next {a b : α} (h : Met next head a) (hb : next a = some b) : Met next head b

theorem Met.of_next (hb : head = some b) (h : Met next (next b) a) :
    Met next head a := by
  induction h with
  | head ha => exact .next (.head hb) ha
  | next _ ha ih => exact .next ih ha

/-- The list goes on where a cell links to. -/
theorem Chain.link_mem (h : Chain next head l) (ha : a ∈ l) (hb : next a = some b) :
    b ∈ l := by
  induction l generalizing head with
  | nil => exact absurd ha List.not_mem_nil
  | cons c l ih =>
      rcases List.mem_cons.mp ha with rfl | ha
      · cases l with
        | nil => exact absurd (hb.symm.trans h.2) (by simp)
        | cons d l => simp [Option.some.inj (hb.symm.trans h.2.1)]
      · exact List.mem_cons_of_mem c (ih h.2 ha)

/-- The cells of a list that ends are the cells that are met. -/
theorem Chain.mem_iff (h : Chain next head l) : a ∈ l ↔ Met next head a := by
  constructor
  · intro ha
    induction l generalizing head with
    | nil => exact absurd ha List.not_mem_nil
    | cons b l ih =>
        rcases List.mem_cons.mp ha with rfl | ha
        · exact .head h.1
        · exact .of_next h.1 (ih h.2 ha)
  · intro ha
    induction ha with
    | head ha =>
        cases l with
        | nil => exact absurd (h.symm.trans ha) (by simp)
        | cons b l => simp [Option.some.inj (h.1.symm.trans ha)]
    | next _ hb ih => exact h.link_mem ih hb

variable [DecidableEq α]

instance decidableChain : ∀ (head : Option α) (l : List α),
    Decidable (Chain next head l)
  | head, [] => inferInstanceAs (Decidable (head = none))
  | head, a :: l =>
      have := decidableChain (next a) l
      inferInstanceAs (Decidable (head = some a ∧ Chain next (next a) l))

/-- Put a new cell in front. -/
theorem Chain.push
    (h : Chain next head l) (ha : a ∉ l) :
    Chain (Function.update next a head) (some a) (a :: l) := by
  refine ⟨rfl, ?_⟩
  rw [Function.update_self]
  refine h.congr (fun b hb => ?_)
  refine Function.update_of_ne ?_ _ _
  rintro rfl
  exact ha hb

/-- Take the first cell off and clear its link. -/
theorem Chain.pop
    (h : Chain next (some a) (a :: l)) (v : Option α) :
    Chain (Function.update next a v) (next a) l := by
  have hnodup := h.nodup
  refine h.2.congr (fun b hb => ?_)
  refine Function.update_of_ne ?_ _ _
  rintro rfl
  exact (List.nodup_cons.mp hnodup).1 hb

/-- Cells in a row of memory, each linking the next one. -/
theorem Chain.range' {next : Nat → Option Nat} {i n : Nat} (hn : n ≠ 0)
    (hnext : ∀ j, i ≤ j → j + 1 < i + n → next j = some (j + 1))
    (hlast : next (i + n - 1) = none) :
    Chain next (some i) (List.range' i n) := by
  induction n generalizing i with
  | zero => exact absurd rfl hn
  | succ n ih =>
      rw [List.range'_succ]
      refine ⟨rfl, ?_⟩
      by_cases h0 : n = 0
      · subst h0
        exact hlast
      · rw [hnext i (Nat.le_refl i) (by omega)]
        refine ih h0 (fun j hj hj' => hnext j (by omega) (by omega)) ?_
        rwa [show i + 1 + n - 1 = i + (n + 1) - 1 by omega]

end LinkedList

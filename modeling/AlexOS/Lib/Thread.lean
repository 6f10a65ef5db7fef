import Mathlib.Data.List.Basic

/-!
# Singly linked chains

A chain threaded through its own cells: each cell holds the link to the next one.
`Threaded next nil head xs` says that following `next` from `head` visits exactly `xs`
and stops at the sentinel. Being visited by a list makes the chain finite.
-/

namespace AlexOS.Thread

variable {α : Type}

def Threaded (next : α → α) (nil : α) : α → List α → Prop
  | head, [] => head = nil
  | head, x :: xs => head = x ∧ x ≠ nil ∧ Threaded next nil (next x) xs

variable {next next' : α → α} {nil head x : α} {xs ys : List α}

theorem Threaded.congr (h : Threaded next nil head xs) (same : ∀ y ∈ xs, next' y = next y) :
    Threaded next' nil head xs := by
  induction xs generalizing head with
  | nil => exact h
  | cons y ys ih =>
    obtain ⟨hh, hnil, rest⟩ := h
    refine ⟨hh, hnil, ?_⟩
    rw [same y List.mem_cons_self]
    exact ih rest fun z hz => same z (List.mem_cons_of_mem y hz)

theorem Threaded.push (h : Threaded next nil head xs) (hx : x ≠ nil) (hnext : next' x = head)
    (same : ∀ y ∈ xs, next' y = next y) : Threaded next' nil x (x :: xs) :=
  ⟨rfl, hx, hnext ▸ h.congr same⟩

/-- A chain whose head is not the sentinel has a first cell to pop. -/
theorem Threaded.pop (h : Threaded next nil head xs) (hne : head ≠ nil) :
    ∃ rest, xs = head :: rest ∧ Threaded next nil (next head) rest := by
  cases xs with
  | nil => exact absurd h hne
  | cons y ys =>
    obtain ⟨rfl, -, rest⟩ := h
    exact ⟨ys, rfl, rest⟩

theorem Threaded.eq_empty (h : Threaded next nil nil xs) : xs = [] := by
  cases xs with
  | nil => rfl
  | cons y ys => exact absurd h.1.symm h.2.1

theorem Threaded.head_mem (h : Threaded next nil head xs) : head = nil ∨ head ∈ xs := by
  cases xs with
  | nil => exact .inl h
  | cons y ys => exact .inr (h.1 ▸ List.mem_cons_self)

end AlexOS.Thread

import Mathlib.Algebra.Group.Nat.Defs
import Mathlib.Tactic.Common

/-!
# Blocks in a heap

A heap says what is in the block at an address. Only a block that is there can be freed, so that
nothing is freed twice without a fault (`none`); the addresses that have been freed are kept in
their order.
-/

namespace Infra

/-- Blocks at addresses. -/
structure Heap (α : Type*) where
  get : Nat → Option α
  freed : List Nat

namespace Heap

variable {α : Type*} {h h' : Heap α} {a b : Nat} {v : α} {l : List Nat}

/-- A block is put at an address. -/
def put (h : Heap α) (a : Nat) (v : α) : Heap α :=
  { h with get := fun b => if b = a then some v else h.get b }

/-- There is no block at an address any more. -/
def erase (h : Heap α) (a : Nat) : Heap α :=
  { h with get := fun b => if b = a then none else h.get b }

def free (h : Heap α) (a : Nat) : Option (Heap α) :=
  if (h.get a).isSome then some { h.erase a with freed := h.freed ++ [a] } else none

@[simp] theorem get_put_self : (h.put a v).get a = some v := if_pos rfl

theorem get_put_of_ne (hne : b ≠ a) : (h.put a v).get b = h.get b := if_neg hne

@[simp] theorem get_erase_self : (h.erase a).get a = none := if_pos rfl

theorem get_erase_of_ne (hne : b ≠ a) : (h.erase a).get b = h.get b := if_neg hne

theorem free_eq (ha : h.get a = some v) :
    h.free a = some { h.erase a with freed := h.freed ++ [a] } :=
  if_pos (by rw [ha]; rfl)

/-- `h'` is what is left of `h` when the blocks of a list have been freed, one after the other. -/
structure Freed (h h' : Heap α) (l : List Nat) : Prop where
  freed : h'.freed = h.freed ++ l
  gone : ∀ a ∈ l, h'.get a = none
  kept : ∀ a ∉ l, h'.get a = h.get a

theorem Freed.refl (h : Heap α) : Freed h h [] where
  freed := (List.append_nil _).symm
  gone _ ha := absurd ha List.not_mem_nil
  kept _ _ := rfl

theorem Freed.cons (hl : Freed { h.erase a with freed := h.freed ++ [a] } h' l) (ha : a ∉ l) :
    Freed h h' (a :: l) where
  freed := by rw [hl.freed, List.append_assoc]; rfl
  gone := by
    intro b hb
    rcases List.mem_cons.mp hb with rfl | hb
    · rw [hl.kept _ ha]
      exact get_erase_self
    · exact hl.gone b hb
  kept := by
    intro b hb
    rw [List.mem_cons, not_or] at hb
    rw [hl.kept b hb.2]
    exact get_erase_of_ne hb.1

theorem Freed.concat (hl : Freed h h' l) :
    Freed h { h'.erase a with freed := h'.freed ++ [a] } (l ++ [a]) where
  freed := by rw [hl.freed, List.append_assoc]
  gone := by
    intro b hb
    rcases eq_or_ne b a with rfl | hne
    · exact get_erase_self
    · rcases List.mem_append.mp hb with hb | hb
      · exact (get_erase_of_ne hne).trans (hl.gone b hb)
      · exact absurd (List.mem_singleton.mp hb) hne
  kept := by
    intro b hb
    rw [List.mem_append, List.mem_singleton, not_or] at hb
    exact (get_erase_of_ne hb.2).trans (hl.kept b hb.1)

end Heap

end Infra

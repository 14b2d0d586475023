import Mathlib.Algebra.Group.Nat.Defs
import Mathlib.Tactic.Common

/-!
# `lib/vector.k.h`: growing arrays

A vector is the list of its elements; the capacity plays no role. `VECTOR_REMOVE` counts the
length down whatever the index is, so that an index past the end drops the last element. It is
never used on an empty vector.
-/

namespace Lyre

variable {α : Type}

/-- `VECTOR_REMOVE(vec, idx)` on a vector that is not empty. -/
def vectorRemove (vec : List α) (idx : Nat) : List α :=
  if idx < vec.length then vec.eraseIdx idx else vec.dropLast

/-- `VECTOR_FIND(vec, value)`, with `none` for `VECTOR_INVALID_INDEX`. -/
def vectorFind [DecidableEq α] (vec : List α) (value : α) : Option Nat :=
  vec.findIdx? (· = value)

/-- `VECTOR_REMOVE_BY_VALUE(vec, value)`: a value that is not there is looked for at the index
`-1`, the largest one. -/
def vectorRemoveByValue [DecidableEq α] (vec : List α) (value : α) : List α :=
  vectorRemove vec ((vectorFind vec value).getD (2 ^ 64 - 1))

/-- `VECTOR_ITEM(vec, idx)` with an index of type `int`, with `none` for `VECTOR_INVALID_INDEX`. A
negative index is far beyond the end as a `size_t`. -/
def vectorItem (vec : List α) (idx : Int) : Option α := if 0 ≤ idx then vec[idx.toNat]? else none

theorem vectorRemoveByValue_of_mem [DecidableEq α] {vec : List α} {value : α} (h : value ∈ vec) :
    vectorRemoveByValue vec value = vec.erase value := by
  have hlt : vec.findIdx (· = value) < vec.length :=
    List.findIdx_lt_length_of_exists ⟨value, h, by simp⟩
  have hfind : vectorFind vec value = some (vec.findIdx (· = value)) := by
    unfold vectorFind
    rw [List.findIdx?_eq_some_iff_findIdx_eq]
    exact ⟨hlt, rfl⟩
  have hidx : List.findIdx (fun x => decide (x = value)) vec = vec.idxOf value := by
    unfold List.idxOf
    congr
  unfold vectorRemoveByValue vectorRemove
  rw [hfind, Option.getD_some, if_pos hlt, hidx, List.erase_eq_eraseIdx_of_idxOf rfl]

theorem vectorRemoveByValue_of_not_mem [DecidableEq α] {vec : List α} {value : α}
    (h : value ∉ vec) (hlen : vec.length < 2 ^ 64) : vectorRemoveByValue vec value = vec.dropLast := by
  have hfind : vectorFind vec value = none := by
    unfold vectorFind
    rw [List.findIdx?_eq_none_iff]
    intro x hx
    rw [decide_eq_false_iff_not]
    rintro rfl
    exact h hx
  unfold vectorRemoveByValue vectorRemove
  rw [hfind, Option.getD_none, if_neg (by omega)]

theorem vectorRemoveByValue_last [DecidableEq α] {vec : List α} {value : α} (hnd : vec.Nodup)
    (h : vec.getLast? = some value) : vectorRemoveByValue vec value = vec.dropLast := by
  obtain ⟨init, rfl⟩ := List.getLast?_eq_some_iff.mp h
  have hmem : value ∈ init ++ [value] := List.mem_append_right _ List.mem_cons_self
  have hnot : value ∉ init := fun hin =>
    (List.nodup_append.mp hnd).2.2 value hin value List.mem_cons_self rfl
  rw [vectorRemoveByValue_of_mem hmem, List.erase_append_right _ hnot, List.erase_cons_head,
    List.append_nil, List.dropLast_concat]

end Lyre

import Mathlib.Data.List.Count
import Mathlib.Logic.Function.Basic

/-!
# Groups with lists of their members

Everybody is in at most one group (`group i`), and a group has a list of its members. `Listed` says
that the lists are right: who is in a group is in its list once, and in no other list.

* `Listed.enter`, `Listed.leave`: somebody without a group joins one, and a member leaves.
* `Listed.clear`: all members of a group leave.
-/

namespace Infra

variable {ι κ : Type*} [DecidableEq ι] [DecidableEq κ] {group group' : ι → Option κ}
  {members : κ → List ι} {i : ι} {k : κ}

def Listed (group : ι → Option κ) (members : κ → List ι) : Prop :=
  ∀ i k, (members k).count i = if group i = some k then 1 else 0

namespace Listed

theorem mem_iff (h : Listed group members) : i ∈ members k ↔ group i = some k := by
  rw [← List.count_pos_iff, h i k]
  split <;> simp_all

theorem enter (h : Listed group members) (hi : group i = none) (k : κ) :
    Listed (Function.update group i (some k))
      (Function.update members k (members k ++ [i])) := by
  intro j l
  have hj := h j l
  by_cases hji : j = i
  · subst hji
    rw [Function.update_self]
    rw [hi] at hj
    by_cases hl : l = k
    · subst hl
      rw [Function.update_self, List.count_append, hj]
      simp
    · rw [Function.update_of_ne hl, hj]
      simp [Ne.symm hl]
  · rw [Function.update_of_ne hji, ← hj]
    by_cases hl : l = k
    · subst hl
      rw [Function.update_self, List.count_append]
      simp [Ne.symm hji]
    · rw [Function.update_of_ne hl]

theorem leave (h : Listed group members) (hi : group i = some k) :
    Listed (Function.update group i none) (Function.update members k ((members k).erase i)) := by
  intro j l
  have hj := h j l
  by_cases hji : j = i
  · subst hji
    rw [Function.update_self]
    by_cases hl : l = k
    · subst hl
      rw [Function.update_self, List.count_erase_self, hj]
      simp [hi]
    · rw [Function.update_of_ne hl, hj, hi]
      simp [Ne.symm hl]
  · rw [Function.update_of_ne hji, ← hj]
    by_cases hl : l = k
    · subst hl
      rw [Function.update_self, List.count_erase_of_ne hji]
    · rw [Function.update_of_ne hl]

theorem clear (h : Listed group members) (k : κ)
    (hg : ∀ i, group' i = if group i = some k then none else group i) :
    Listed group' (Function.update members k []) := by
  intro j l
  have hj := h j l
  rw [hg j]
  by_cases hl : l = k
  · subst hl
    rw [Function.update_self, List.count_nil]
    split <;> simp_all
  · rw [Function.update_of_ne hl, hj]
    split <;> split <;> simp_all

end Listed

end Infra

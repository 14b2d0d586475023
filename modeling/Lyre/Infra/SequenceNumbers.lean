import Mathlib.Algebra.Group.Nat.Defs
import Mathlib.Tactic.Common

/-!
# Sequence numbers

Numbers of `w` bits that go on with 0 behind the last one. Between two of them are those that one
passes on the way up from the first to the second, and a number precedes the ones that it reaches
in less than half a turn.

Comparisons of the numbers as they are decide the same as long as one does not pass 0.
-/

namespace Infra.SequenceNumbers

variable {w : Nat} {a b n x : BitVec w}

/-- One of the `n` numbers from `a` on. -/
def InSpan (a n x : BitVec w) : Prop := x - a < n

/-- On the way from `a` to `b`. -/
def Between (a x b : BitVec w) : Prop := x - a ≤ b - a

/-- On the way from `a` to `b`, but not at `a` any more. -/
def Passed (a x b : BitVec w) : Prop := x ≠ a ∧ Between a x b

/-- Less than half a turn leads from `a` to `b`. -/
def Precedes (a b : BitVec w) : Prop := a ≠ b ∧ (b - a).toNat < 2 ^ (w - 1)

instance : Decidable (InSpan a n x) := inferInstanceAs (Decidable (x - a < n))

instance : Decidable (Between a x b) := inferInstanceAs (Decidable (x - a ≤ b - a))

instance : Decidable (Passed a x b) := inferInstanceAs (Decidable (_ ∧ _))

instance : Decidable (Precedes a b) := inferInstanceAs (Decidable (_ ∧ _))

/-- The numbers as they are have a difference of less than half a turn. -/
def Near (a b : BitVec w) : Prop :=
  b.toNat < a.toNat + 2 ^ (w - 1) ∧ a.toNat ≤ b.toNat + 2 ^ (w - 1)

instance : Decidable (Near a b) := inferInstanceAs (Decidable (_ ∧ _))

/-! ## Plain comparisons -/

/-- How far it is from `a` to `x`. -/
theorem toNat_sub_eq (a x : BitVec w) :
    (x - a).toNat =
      if a.toNat ≤ x.toNat then x.toNat - a.toNat else x.toNat + 2 ^ w - a.toNat := by
  have ha := a.isLt
  have hx := x.isLt
  rw [BitVec.toNat_sub]
  split
  · rw [show 2 ^ w - a.toNat + x.toNat = x.toNat - a.toNat + 2 ^ w by omega, Nat.add_mod_right,
      Nat.mod_eq_of_lt (by omega)]
  · rw [Nat.mod_eq_of_lt (by omega)]
    omega

theorem plain_window_iff :
    a ≤ x ∧ x < a + n ↔ InSpan a n x ∧ a.toNat + n.toNat < 2 ^ w := by
  have ha := a.isLt
  have hx := x.isLt
  have hn := n.isLt
  unfold InSpan
  rw [BitVec.lt_def, BitVec.lt_def, BitVec.toNat_add, toNat_sub_eq]
  rcases Nat.lt_or_ge (a.toNat + n.toNat) (2 ^ w) with hlt | hge
  · rw [Nat.mod_eq_of_lt hlt, BitVec.le_def]
    split <;> omega
  · rw [Nat.mod_eq_sub_mod hge, Nat.mod_eq_of_lt (by omega), BitVec.le_def]
    omega

theorem plain_between_iff : a ≤ x ∧ x ≤ b ↔ Between a x b ∧ a ≤ b := by
  have hx := x.isLt
  have hb := b.isLt
  unfold Between
  rw [BitVec.le_def, BitVec.le_def, BitVec.le_def, BitVec.le_def, toNat_sub_eq, toNat_sub_eq]
  split <;> split <;> omega

theorem plain_passed_iff : a < x ∧ x ≤ b ↔ Passed a x b ∧ a ≤ b := by
  have hne : x ≠ a ↔ x.toNat ≠ a.toNat := BitVec.toNat_inj.not.symm
  unfold Passed
  rw [and_assoc, ← plain_between_iff, hne, BitVec.lt_def, BitVec.le_def, BitVec.le_def]
  omega

theorem plain_lt_iff (hw : 0 < w) : (a < b ↔ Precedes a b) ↔ Near a b := by
  have ha := a.isLt
  have hb := b.isLt
  have htwo : 2 ^ w = 2 ^ (w - 1) + 2 ^ (w - 1) := by
    rw [← Nat.mul_two, ← Nat.pow_succ, Nat.succ_eq_add_one, Nat.sub_add_cancel hw]
  have hne : a ≠ b ↔ a.toNat ≠ b.toNat := BitVec.toNat_inj.not.symm
  unfold Precedes Near
  rw [hne, toNat_sub_eq, BitVec.lt_def]
  split <;> omega

theorem plain_le_iff (hw : 0 < w) : (a ≤ b ↔ a = b ∨ Precedes a b) ↔ Near a b := by
  rw [← plain_lt_iff hw]
  rcases eq_or_ne a b with rfl | hne
  · simp [Precedes]
  · have hlt : a ≤ b ↔ a < b := ⟨fun h => BitVec.lt_of_le_ne h hne, BitVec.le_of_lt⟩
    rw [hlt, or_iff_right hne]

end Infra.SequenceNumbers

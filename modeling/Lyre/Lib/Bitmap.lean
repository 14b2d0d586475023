import Mathlib.Logic.Function.Basic
import Mathlib.Algebra.Group.Nat.Defs
import Mathlib.Tactic.Common

/-!
# `lib/bitmap.k.h`

A bitmap is the byte array behind a `void *`: bit `n` is bit `n % 8` of byte `n / 8`. The
header never looks at a length, so the array is a function from byte offsets.
-/

namespace Lyre

/-- The bytes behind the `bitmap` pointer. -/
abbrev Bitmap := Nat → BitVec 8

def bitmapTest (bitmap : Bitmap) (bit : Nat) : Bool :=
  (bitmap (bit / 8) &&& 1#8 <<< (bit % 8)) != 0#8

def bitmapSet (bitmap : Bitmap) (bit : Nat) : Bitmap :=
  Function.update bitmap (bit / 8) (bitmap (bit / 8) ||| 1#8 <<< (bit % 8))

def bitmapReset (bitmap : Bitmap) (bit : Nat) : Bitmap :=
  Function.update bitmap (bit / 8) (bitmap (bit / 8) &&& ~~~(1#8 <<< (bit % 8)))

theorem getLsbD_one_shiftLeft {i j : Nat} (hi : i < 8) (hj : j < 8) :
    (1#8 <<< i).getLsbD j = decide (i = j) := by
  have hall : ∀ a ∈ List.range 8, ∀ b ∈ List.range 8,
      (1#8 <<< a).getLsbD b = decide (a = b) := by decide
  exact hall i (List.mem_range.mpr hi) j (List.mem_range.mpr hj)

theorem and_one_shiftLeft_ne_zero (b : BitVec 8) {i : Nat} (hi : i < 8) :
    (b &&& 1#8 <<< i != 0#8) = b.getLsbD i := by
  rw [Bool.eq_iff_iff, bne_iff_ne, ne_eq]
  constructor
  · intro h
    by_contra hb
    refine h (BitVec.eq_of_getLsbD_eq fun j hj => ?_)
    rw [BitVec.getLsbD_and, getLsbD_one_shiftLeft hi hj]
    by_cases hij : i = j
    · subst hij; simpa using hb
    · simp [hij]
  · intro h h0
    have hi' := congrArg (fun x => BitVec.getLsbD x i) h0
    simp [getLsbD_one_shiftLeft hi hi, h] at hi'

theorem bitmapTest_eq (bitmap : Bitmap) (bit : Nat) :
    bitmapTest bitmap bit = (bitmap (bit / 8)).getLsbD (bit % 8) :=
  and_one_shiftLeft_ne_zero _ (Nat.mod_lt _ (by decide))

theorem bit_eq_iff {i j : Nat} : i = j ↔ i / 8 = j / 8 ∧ i % 8 = j % 8 := by omega

@[simp] theorem bitmapTest_bitmapSet (bitmap : Bitmap) (i j : Nat) :
    bitmapTest (bitmapSet bitmap i) j = (decide (i = j) || bitmapTest bitmap j) := by
  have hi : i % 8 < 8 := Nat.mod_lt _ (by decide)
  have hj : j % 8 < 8 := Nat.mod_lt _ (by decide)
  rw [bitmapTest_eq, bitmapTest_eq, bitmapSet]
  by_cases hb : j / 8 = i / 8
  · rw [hb, Function.update_self, BitVec.getLsbD_or, getLsbD_one_shiftLeft hi hj, Bool.or_comm]
    congr 1
    rw [decide_eq_decide, bit_eq_iff (i := i)]
    simp [hb]
  · rw [Function.update_of_ne hb]
    have : i ≠ j := fun h => hb (by rw [h])
    simp [this]

@[simp] theorem bitmapTest_bitmapReset (bitmap : Bitmap) (i j : Nat) :
    bitmapTest (bitmapReset bitmap i) j = (!decide (i = j) && bitmapTest bitmap j) := by
  have hi : i % 8 < 8 := Nat.mod_lt _ (by decide)
  have hj : j % 8 < 8 := Nat.mod_lt _ (by decide)
  rw [bitmapTest_eq, bitmapTest_eq, bitmapReset]
  by_cases hb : j / 8 = i / 8
  · rw [hb, Function.update_self, BitVec.getLsbD_and, BitVec.getLsbD_not,
      getLsbD_one_shiftLeft hi hj, Bool.and_comm]
    congr 1
    simp only [hj, decide_true, Bool.true_and]
    congr 1
    rw [decide_eq_decide, bit_eq_iff (i := i)]
    simp [hb]
  · rw [Function.update_of_ne hb]
    have : i ≠ j := fun h => hb (by rw [h])
    simp [this]

end Lyre

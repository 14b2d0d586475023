import Mathlib.Tactic.Common

/-!
# Functions of words that are linear over the two-element field

A function of words is linear if it takes the exclusive or of two words to the exclusive or of their
values. It is determined by its values at the words with a single bit, so that an identity between
linear functions can be checked by evaluating them there.
-/

namespace Infra

variable {u v w : Nat}

theorem xor_exchange {a b c d : BitVec w} (h : a ^^^ b = c ^^^ d) : b ^^^ c = a ^^^ d := by
  apply BitVec.xor_eq_zero_iff.mp
  calc b ^^^ c ^^^ (a ^^^ d)
      = (a ^^^ b) ^^^ (c ^^^ d) := by ac_rfl
    _ = 0 := by rw [h, BitVec.xor_self]; rfl

/-- The function respects the exclusive or. -/
def XorLinear (f : BitVec v → BitVec w) : Prop := ∀ x y, f (x ^^^ y) = f x ^^^ f y

namespace XorLinear

theorem zero {f : BitVec v → BitVec w} (hf : XorLinear f) : f 0 = 0 := by
  have h := hf 0 0
  rw [BitVec.xor_self, BitVec.xor_self] at h
  exact h

theorem id : XorLinear (fun x : BitVec v => x) := fun _ _ => rfl

theorem const_zero : XorLinear (fun _ : BitVec v => (0 : BitVec w)) := fun _ _ =>
  (BitVec.xor_self).symm

theorem comp {g : BitVec v → BitVec w} {f : BitVec u → BitVec v} (hg : XorLinear g)
    (hf : XorLinear f) : XorLinear (fun x => g (f x)) := fun x y => by
  show g (f (x ^^^ y)) = g (f x) ^^^ g (f y)
  rw [hf x y, hg]

theorem xor {f g : BitVec v → BitVec w} (hf : XorLinear f) (hg : XorLinear g) :
    XorLinear (fun x => f x ^^^ g x) := fun x y => by
  show f (x ^^^ y) ^^^ g (x ^^^ y) = f x ^^^ g x ^^^ (f y ^^^ g y)
  rw [hf x y, hg x y]
  ac_rfl

theorem and (mask : BitVec v) : XorLinear (fun x : BitVec v => x &&& mask) := fun x y => by
  apply BitVec.eq_of_getLsbD_eq
  intro i _
  simp only [BitVec.getLsbD_and, BitVec.getLsbD_xor]
  exact Bool.and_xor_distrib_right ..

theorem shiftRight (n : Nat) : XorLinear (fun x : BitVec v => x >>> n) := fun x y =>
  BitVec.ushiftRight_xor_distrib x y n

theorem shiftLeft (n : Nat) : XorLinear (fun x : BitVec v => x <<< n) := fun x y =>
  BitVec.shiftLeft_xor_distrib x y n

theorem bit (i : Nat) (a : BitVec w) : XorLinear (fun x : BitVec v => if x.getLsbD i then a else 0) :=
  fun x y => by
    dsimp only
    rw [BitVec.getLsbD_xor]
    cases x.getLsbD i <;> cases y.getLsbD i <;> simp

/-- A linear function that is zero at the single bits is zero everywhere. -/
theorem eq_zero {f : BitVec v → BitVec w} (hf : XorLinear f)
    (h : ∀ i, i < v → f (BitVec.twoPow v i) = 0) (x : BitVec v) : f x = 0 := by
  -- the words below `2 ^ k`, by induction on `k`
  have hlow : ∀ k, k ≤ v → f (BitVec.ofNat v (x.toNat % 2 ^ k)) = 0 := by
    intro k
    induction k with
    | zero =>
      intro _
      rw [Nat.pow_zero, Nat.mod_one]
      exact hf.zero
    | succ k ih =>
      intro hk
      have hsplit : BitVec.ofNat v (x.toNat % 2 ^ (k + 1)) =
          BitVec.ofNat v (x.toNat % 2 ^ k) ^^^ if x.getLsbD k then BitVec.twoPow v k else 0 := by
        apply BitVec.eq_of_getLsbD_eq
        intro i hi
        rw [BitVec.getLsbD_xor, BitVec.getLsbD_ofNat, BitVec.getLsbD_ofNat,
          Nat.testBit_mod_two_pow, Nat.testBit_mod_two_pow, BitVec.testBit_toNat]
        rcases Nat.lt_trichotomy i k with hik | rfl | hik
        · have h1 : i < k + 1 := by omega
          have h2 : ¬ i = k := by omega
          cases x.getLsbD k <;> simp [hi, hik, h1, h2]
        · cases hx : x.getLsbD i <;> simp [hi]
        · have h1 : ¬ i < k := by omega
          have h2 : ¬ i < k + 1 := by omega
          have h3 : ¬ k = i := by omega
          cases x.getLsbD k <;> simp [h1, h2, h3]
      rw [hsplit, hf, ih (by omega)]
      refine (BitVec.zero_xor).trans ?_
      split
      · exact h k (by omega)
      · exact hf.zero
  have hx := hlow v (Nat.le_refl v)
  rwa [Nat.mod_eq_of_lt x.isLt, BitVec.ofNat_toNat, BitVec.setWidth_eq] at hx

/-- Linear functions that agree at the single bits agree everywhere. -/
theorem eq_of_twoPow {f g : BitVec v → BitVec w} (hf : XorLinear f) (hg : XorLinear g)
    (h : ∀ i, i < v → f (BitVec.twoPow v i) = g (BitVec.twoPow v i)) (x : BitVec v) :
    f x = g x := by
  have hzero := (hf.xor hg).eq_zero (fun i hi => by rw [h i hi]; exact BitVec.xor_self) x
  exact BitVec.xor_eq_zero_iff.mp hzero

end XorLinear

/-! ## Tables -/

/-- The exclusive or of the table's words at the bits of `x` that are set, from bit `i` on. -/
def combineFrom (x : BitVec v) : Nat → List (BitVec w) → BitVec w
  | _, [] => 0
  | i, a :: table => (if x.getLsbD i then a else 0) ^^^ combineFrom x (i + 1) table

/-- The linear function with the given values at the single bits. -/
def combine (table : List (BitVec w)) (x : BitVec v) : BitVec w := combineFrom x 0 table

theorem combineFrom_linear (table : List (BitVec w)) (i : Nat) :
    XorLinear (fun x : BitVec v => combineFrom x i table) := by
  induction table generalizing i with
  | nil => exact XorLinear.const_zero
  | cons a table ih => exact (XorLinear.bit i a).xor (ih (i + 1))

theorem combine_linear (table : List (BitVec w)) :
    XorLinear (fun x : BitVec v => combine table x) :=
  combineFrom_linear table 0

end Infra

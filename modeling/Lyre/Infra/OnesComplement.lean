import Mathlib.Algebra.GroupWithZero.Nat
import Mathlib.Tactic.Common

/-!
# Checksums in one's complement arithmetic

RFC 1071. Bytes are taken in pairs, as numbers of 16 bits whose first byte is the most significant
one, and a zero is put behind the last byte of an odd number of them. The numbers are added with the
carry at the end, and what is transmitted is the complement of the sum.

A program that adds the numbers as a little-endian processor loads them, and folds the carries in
later, gets the same sum with its bytes swapped. This is so because both are additions modulo
`2 ^ 16 - 1`, where a swap is a multiplication by 256.
-/

namespace Infra.OnesComplement

variable {n v : Nat} {l l' : List (BitVec 8)}

/-! ## Addition -/

/-- The sum of two numbers of 16 bits. A carry is added at the end. -/
def add (x y : Nat) : Nat := if x + y < 2 ^ 16 then x + y else x + y - (2 ^ 16 - 1)

/-- The number of 16 bits that stands for `n`. Only 0 itself is 0. -/
def residue (n : Nat) : Nat := if n = 0 then 0 else (n - 1) % 65535 + 1

theorem residue_lt (n : Nat) : residue n < 2 ^ 16 := by
  unfold residue
  split <;> omega

theorem residue_of_lt (h : n < 2 ^ 16) : residue n = n := by
  unfold residue
  split <;> omega

theorem add_residue {y : Nat} (hy : y < 2 ^ 16) : add (residue n) y = residue (n + y) := by
  unfold add residue
  split <;> split <;> split <;> omega

theorem foldl_add {ws : List Nat} (h : ∀ w ∈ ws, w < 2 ^ 16) :
    ws.foldl add (residue n) = residue (n + ws.sum) := by
  induction ws generalizing n with
  | nil => rfl
  | cons w ws ih =>
    rw [List.foldl_cons, add_residue (h w List.mem_cons_self),
      ih fun x hx => h x (List.mem_cons_of_mem w hx), List.sum_cons, Nat.add_assoc]

/-- Numbers that are both 0, or both not, have one residue if they are congruent. -/
theorem residue_congr {m k : Nat} (h : n = m + 65535 * k) (h0 : m = 0 → n = 0) :
    residue n = residue m := by
  unfold residue
  split <;> split <;> omega

/-- The residue is the only number of 16 bits that is congruent to `n`, and 0 where `n` is. -/
theorem residue_eq {k : Nat} (hv : v < 2 ^ 16) (h : n = v + 65535 * k) (h0 : v = 0 → n = 0) :
    residue n = v := by
  rw [residue_congr h h0, residue_of_lt hv]

theorem eq_residue_add (n : Nat) : ∃ k, n = residue n + 65535 * k ∧ (residue n = 0 → n = 0) := by
  refine ⟨(n - 1) / 65535, ?_, ?_⟩
  · unfold residue
    split <;> omega
  · unfold residue
    split <;> omega

theorem residue_add_eq_iff (h : v < 65535) : residue (n + v) = residue n ↔ v = 0 := by
  constructor
  · unfold residue
    split <;> split <;> omega
  · rintro rfl
    rfl

/-- Of the numbers that make the sum all ones, the complement of the sum is the one that is not all
ones itself. -/
theorem eq_complement_iff (hn : n ≠ 0) (hv : v < 2 ^ 16) :
    v = 65535 - residue n ↔ residue (n + v) = 65535 ∧ v ≠ 65535 := by
  unfold residue
  rw [if_neg hn, if_neg (by omega)]
  omega

/-! ## Carries that are folded in -/

/-- What is above 16 bits is added to the rest. -/
def fold (n : Nat) : Nat := n % 2 ^ 16 + n / 2 ^ 16

theorem fold_le {b : Nat} (h : n < 2 ^ 16 * (b + 1)) : fold n ≤ 2 ^ 16 - 1 + b := by
  unfold fold
  omega

theorem residue_add_fold (n v : Nat) : residue (fold n + v) = residue (n + v) := by
  refine (residue_congr (k := n / 2 ^ 16) ?_ ?_).symm
  · unfold fold
    omega
  · unfold fold
    omega

theorem residue_fold (n : Nat) : residue (fold n) = residue n := residue_add_fold n 0

theorem residue_of_carry (h : 2 ^ 16 ≤ n) (h' : n < 2 ^ 17 - 1) : residue n = n - 65535 := by
  unfold residue
  split <;> omega

theorem fold_mod_eq_residue_iff (h : n < 2 ^ 32) :
    fold n % 2 ^ 16 = residue n ↔ fold n < 2 ^ 16 := by
  have hle : fold n ≤ 2 ^ 16 - 1 + (2 ^ 16 - 1) := fold_le (by omega)
  rw [← residue_fold]
  rcases Nat.lt_or_ge (fold n) (2 ^ 16) with hlt | hge
  · rw [residue_of_lt hlt, Nat.mod_eq_of_lt hlt]
    exact iff_of_true rfl hlt
  · rw [residue_of_carry hge (by omega)]
    omega

theorem fold_carry (h : n < 2 ^ 32) :
    (if 2 ^ 16 - 1 < fold n then fold n + 1 else fold n) % 2 ^ 16 = residue n := by
  have hle : fold n ≤ 2 ^ 16 - 1 + (2 ^ 16 - 1) := fold_le (by omega)
  rw [← residue_fold]
  split
  · rw [residue_of_carry (by omega) (by omega)]
    omega
  · rw [residue_of_lt (by omega)]
    exact Nat.mod_eq_of_lt (by omega)

/-! ## Swaps -/

/-- The two bytes of a number change places. -/
def swap (n : Nat) : Nat := 256 * (n % 256) + n / 256

theorem swap_swap (h : n < 2 ^ 16) : swap (swap n) = n := by
  unfold swap
  omega

theorem swap_lt (h : n < 2 ^ 16) : swap n < 2 ^ 16 := by
  unfold swap
  omega

theorem residue_mul_256 (n : Nat) : residue (256 * n) = swap (residue n) := by
  obtain ⟨k, hk, h0⟩ := eq_residue_add n
  have hlt := residue_lt n
  refine residue_eq (k := 256 * k + residue n / 256) (swap_lt hlt) ?_ ?_
  · unfold swap
    omega
  · unfold swap
    omega

theorem swap_eq_ones_iff (h : n < 2 ^ 16) : swap n = 65535 ↔ n = 65535 := by
  unfold swap
  omega

/-! ## Bytes -/

/-- Pairs of bytes. The first one is the most significant one. -/
def bigWords : List (BitVec 8) → List Nat
  | [] => []
  | [a] => [256 * a.toNat]
  | a :: b :: l => (256 * a.toNat + b.toNat) :: bigWords l

/-- The sum of the pairs, the first byte of each being the least significant one. -/
def littleSum : List (BitVec 8) → Nat
  | [] => 0
  | [a] => a.toNat
  | a :: b :: l => a.toNat + 256 * b.toNat + littleSum l

/-- The sum of RFC 1071. -/
def sum (bytes : List (BitVec 8)) : Nat := (bigWords bytes).foldl add 0

/-- The checksum of RFC 1071, as a number: its first byte in memory is the most significant one. -/
def checksum (bytes : List (BitVec 8)) : BitVec 16 := ~~~ BitVec.ofNat 16 (sum bytes)

theorem bigWords_lt : ∀ {l : List (BitVec 8)}, ∀ w ∈ bigWords l, w < 2 ^ 16
  | [], w, h => absurd h List.not_mem_nil
  | [a], w, h => by
    obtain rfl := List.mem_singleton.mp h
    have := a.isLt
    omega
  | a :: b :: l, w, h => by
    rcases List.mem_cons.mp h with rfl | h
    · have := a.isLt
      have := b.isLt
      omega
    · exact bigWords_lt w h

theorem littleSum_append : ∀ {l l' : List (BitVec 8)}, l.length % 2 = 0 →
    littleSum (l ++ l') = littleSum l + littleSum l'
  | [], l', _ => by rw [List.nil_append, littleSum, Nat.zero_add]
  | [_], _, h => absurd h Nat.one_ne_zero
  | a :: b :: l, l', h => by
    have hl : l.length % 2 = 0 := by
      rw [List.length_cons, List.length_cons] at h
      omega
    rw [List.cons_append, List.cons_append, littleSum, littleSum, littleSum_append hl]
    omega

theorem littleSum_le : ∀ l : List (BitVec 8), littleSum l ≤ 65535 * ((l.length + 1) / 2)
  | [] => Nat.le_refl 0
  | [a] => by
    have := a.isLt
    rw [littleSum, List.length_singleton]
    omega
  | a :: b :: l => by
    have := a.isLt
    have := b.isLt
    have := littleSum_le l
    rw [littleSum, List.length_cons, List.length_cons]
    omega

/-- 256 times the sum of one order is congruent to the sum of the other one. -/
theorem littleSum_mul_256 : ∀ l : List (BitVec 8),
    ∃ k, 256 * littleSum l = (bigWords l).sum + 65535 * k ∧ ((bigWords l).sum = 0 → k = 0)
  | [] => ⟨0, rfl, fun _ => rfl⟩
  | [a] => ⟨0, rfl, fun _ => rfl⟩
  | a :: b :: l => by
    obtain ⟨k, hk, h0⟩ := littleSum_mul_256 l
    refine ⟨b.toNat + k, ?_, ?_⟩
    · rw [littleSum, bigWords, List.sum_cons]
      omega
    · rw [bigWords, List.sum_cons]
      intro h
      rw [h0 (by omega)]
      omega

/-- The order of the bytes does not matter, up to a swap of the sum. -/
theorem sum_eq_swap (l : List (BitVec 8)) : sum l = swap (residue (littleSum l)) := by
  obtain ⟨k, hk, h0⟩ := littleSum_mul_256 l
  have hsum : sum l = residue (0 + (bigWords l).sum) := foldl_add (n := 0) bigWords_lt
  rw [hsum, Nat.zero_add, ← residue_mul_256]
  exact (residue_congr hk fun h => by rw [h, h0 h] at hk; omega).symm

end Infra.OnesComplement

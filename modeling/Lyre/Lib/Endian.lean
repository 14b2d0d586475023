import Mathlib.Algebra.Group.Nat.Defs
import Mathlib.Tactic.Common

/-!
# Numbers in memory, and byte swaps

The processor is little-endian, the network is not. Headers are loaded and stored as the processor
does it, and the kernel swaps bytes where it wants the value.
-/

namespace Lyre

/-- Little-endian loads. -/
def load16 (buf : Nat → BitVec 8) (a : Nat) : BitVec 16 := buf (a + 1) ++ buf a

def load32 (buf : Nat → BitVec 8) (a : Nat) : BitVec 32 :=
  buf (a + 3) ++ buf (a + 2) ++ buf (a + 1) ++ buf a

/-- Little-endian stores. -/
def bytes16 (x : BitVec 16) : List (BitVec 8) := [x.extractLsb' 0 8, x.extractLsb' 8 8]

def bytes32 (x : BitVec 32) : List (BitVec 8) :=
  [x.extractLsb' 0 8, x.extractLsb' 8 8, x.extractLsb' 16 8, x.extractLsb' 24 8]

/-- `__builtin_bswap16`. -/
def bswap16 (x : BitVec 16) : BitVec 16 := x.extractLsb' 0 8 ++ x.extractLsb' 8 8

/-- `__builtin_bswap32`. -/
def bswap32 (x : BitVec 32) : BitVec 32 :=
  x.extractLsb' 0 8 ++ x.extractLsb' 8 8 ++ x.extractLsb' 16 8 ++ x.extractLsb' 24 8

@[simp] theorem bswap16_bswap16 (x : BitVec 16) : bswap16 (bswap16 x) = x := by
  have hlow : (bswap16 x).extractLsb' 0 8 = x.extractLsb' 8 8 := BitVec.extractLsb'_append_eq_right
  have hhigh : (bswap16 x).extractLsb' 8 8 = x.extractLsb' 0 8 := BitVec.extractLsb'_append_eq_left
  rw [bswap16, hlow, hhigh]
  exact BitVec.extractLsb'_append_extractLsb'

@[simp] theorem bswap16_eq_zero {x : BitVec 16} : bswap16 x = 0#16 ↔ x = 0#16 := by
  constructor
  · intro h
    rw [← bswap16_bswap16 x, h]
    decide
  · rintro rfl
    decide

theorem append_bytes32 (x : BitVec 32) :
    x.extractLsb' 24 8 ++ x.extractLsb' 16 8 ++ x.extractLsb' 8 8 ++ x.extractLsb' 0 8 = x := by
  rw [BitVec.extractLsb'_append_extractLsb'_eq_extractLsb' (x := x) (by rfl),
    BitVec.extractLsb'_append_extractLsb'_eq_extractLsb' (x := x) (by rfl)]
  exact BitVec.extractLsb'_append_extractLsb'

@[simp] theorem bswap32_bswap32 (x : BitVec 32) : bswap32 (bswap32 x) = x := by
  have h₀ : (bswap32 x).extractLsb' 0 8 = x.extractLsb' 24 8 := BitVec.extractLsb'_append_eq_right
  have h₁ : (bswap32 x).extractLsb' 8 8 = x.extractLsb' 16 8 := by
    rw [bswap32, BitVec.extractLsb'_append_eq_of_le (by decide)]
    exact BitVec.extractLsb'_append_eq_right
  have h₂ : (bswap32 x).extractLsb' 16 8 = x.extractLsb' 8 8 := by
    rw [bswap32, BitVec.extractLsb'_append_eq_of_le (by decide),
      BitVec.extractLsb'_append_eq_of_le (by decide)]
    exact BitVec.extractLsb'_append_eq_right
  have h₃ : (bswap32 x).extractLsb' 24 8 = x.extractLsb' 0 8 := by
    rw [bswap32, BitVec.extractLsb'_append_eq_of_le (by decide),
      BitVec.extractLsb'_append_eq_of_le (by decide)]
    exact BitVec.extractLsb'_append_eq_left
  rw [bswap32, h₀, h₁, h₂, h₃]
  exact append_bytes32 x

theorem load16_of_bytes {buf : Nat → BitVec 8} {a : Nat} {x : BitVec 16}
    (h₀ : buf a = x.extractLsb' 0 8) (h₁ : buf (a + 1) = x.extractLsb' 8 8) : load16 buf a = x := by
  rw [load16, h₀, h₁]
  exact BitVec.extractLsb'_append_extractLsb'

theorem load32_of_bytes {buf : Nat → BitVec 8} {a : Nat} {x : BitVec 32}
    (h₀ : buf a = x.extractLsb' 0 8) (h₁ : buf (a + 1) = x.extractLsb' 8 8)
    (h₂ : buf (a + 2) = x.extractLsb' 16 8) (h₃ : buf (a + 3) = x.extractLsb' 24 8) :
    load32 buf a = x := by
  rw [load32, h₀, h₁, h₂, h₃]
  exact append_bytes32 x

end Lyre

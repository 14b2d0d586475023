import Mathlib.Algebra.Group.Nat.Defs
import Mathlib.Tactic.Common

/-!
# `lib/misc.k.h`: rounding macros on 64-bit words

Addresses and sizes are `uint64_t`. They are natural numbers below `2 ^ 64` here, and every
sum or product that the kernel computes in 64 bits is reduced by `u64`.
-/

namespace Lyre

/-- A value as a 64-bit register holds it. -/
def u64 (n : Nat) : Nat := n % 2 ^ 64

/-- `PAGE_SIZE` of `mm/vmm.k.h`. -/
def pageSize : Nat := 4096

/-- `DIV_ROUNDUP`. -/
def divRoundup (value div : Nat) : Nat := u64 (value + (div - 1)) / div

/-- `ALIGN_UP`. -/
def alignUp (value align : Nat) : Nat := u64 (divRoundup value align * align)

/-- `ALIGN_DOWN`. -/
def alignDown (value align : Nat) : Nat := value / align * align

@[simp] theorem u64_lt (n : Nat) : u64 n < 2 ^ 64 := Nat.mod_lt _ (by decide)

theorem u64_of_lt {n : Nat} (h : n < 2 ^ 64) : u64 n = n := Nat.mod_eq_of_lt h

theorem alignUp_dvd (n : Nat) : pageSize ∣ alignUp n pageSize := by
  unfold alignUp divRoundup u64 pageSize
  omega

theorem alignUp_of_dvd {n : Nat} (h : pageSize ∣ n) (hn : n < 2 ^ 64) :
    alignUp n pageSize = n := by
  unfold alignUp divRoundup u64 pageSize at *
  omega

theorem alignUp_alignUp (n : Nat) :
    alignUp (alignUp n pageSize) pageSize = alignUp n pageSize :=
  alignUp_of_dvd (alignUp_dvd n) (u64_lt _)

end Lyre

import Lyre.Time.Time
import Mathlib.Logic.Function.Iterate

/-!
# `timespec_add`, `timespec_sub`

A `timespec` stands for a number of nanoseconds. The sum is exact unless the seconds overflow. The
difference is one nanosecond short whenever a second is borrowed and the result is not zero, since
the second is borrowed as 999999999 nanoseconds.
-/

namespace Lyre.Time

theorem long_of_bounds {x : Int} (h0 : -2 ^ 63 ≤ x) (h : x < 2 ^ 63) : long x = x := by
  unfold long
  omega

theorem long_lt (x : Int) : long x < 2 ^ 63 := by
  unfold long
  omega

namespace Timespec

/-- The time in nanoseconds. -/
def ns (a : Timespec) : Int := a.tvSec * 1000000000 + a.tvNsec

/-- The nanoseconds are less than a second, and the seconds are a value of the type. -/
structure Valid (a : Timespec) : Prop where
  sec_nonneg : 0 ≤ a.tvSec
  sec_lt : a.tvSec < 2 ^ 63
  nsec_nonneg : 0 ≤ a.tvNsec
  nsec_le : a.tvNsec ≤ 999999999

theorem Valid.ns_nonneg {a : Timespec} (ha : a.Valid) : 0 ≤ a.ns := by
  obtain ⟨h1, _, h3, _⟩ := ha
  unfold ns
  omega

theorem Valid.zero : Valid ⟨0, 0⟩ := ⟨by decide, by decide, by decide, by decide⟩

end Timespec

open Timespec

/-! ## The sum -/

theorem timespecAdd_eq {a b : Timespec} (ha : a.Valid) (hb : b.Valid) :
    timespecAdd a b =
      if 999999999 < a.tvNsec + b.tvNsec then
        ⟨long (a.tvSec + b.tvSec + 1), a.tvNsec + b.tvNsec - 1000000000⟩
      else ⟨long (a.tvSec + b.tvSec), a.tvNsec + b.tvNsec⟩ := by
  obtain ⟨h1, h2, h3, h4⟩ := ha
  obtain ⟨g1, g2, g3, g4⟩ := hb
  have hsum : long (a.tvNsec + b.tvNsec) = a.tvNsec + b.tvNsec :=
    long_of_bounds (by omega) (by omega)
  unfold timespecAdd
  rw [hsum]
  split
  · have hsec : long (long (a.tvSec + 1) + b.tvSec) = long (a.tvSec + b.tvSec + 1) := by
      unfold long
      omega
    have hnsec : long (a.tvNsec + b.tvNsec - 1000000000) = a.tvNsec + b.tvNsec - 1000000000 :=
      long_of_bounds (by omega) (by omega)
    simp only [hsec, hnsec]
  · rfl

theorem timespecAdd_nsec {a b : Timespec} (ha : a.Valid) (hb : b.Valid) :
    0 ≤ (timespecAdd a b).tvNsec ∧ (timespecAdd a b).tvNsec ≤ 999999999 := by
  obtain ⟨_, _, h3, h4⟩ := id ha
  obtain ⟨_, _, g3, g4⟩ := id hb
  rw [timespecAdd_eq ha hb]
  split <;> dsimp only <;> omega

/-- The sum is exact as long as it is a time that a `timespec` can hold. -/
theorem timespecAdd_ns_iff {a b : Timespec} (ha : a.Valid) (hb : b.Valid) :
    (timespecAdd a b).ns = a.ns + b.ns ↔ a.ns + b.ns < 2 ^ 63 * 1000000000 := by
  obtain ⟨h1, h2, h3, h4⟩ := id ha
  obtain ⟨g1, g2, g3, g4⟩ := id hb
  rw [timespecAdd_eq ha hb]
  unfold Timespec.ns
  split
  · have := long_lt (a.tvSec + b.tvSec + 1)
    constructor
    · intro h
      dsimp only at h
      omega
    · intro h
      have := long_of_bounds (x := a.tvSec + b.tvSec + 1) (by omega) (by omega)
      dsimp only
      omega
  · have := long_lt (a.tvSec + b.tvSec)
    constructor
    · intro h
      dsimp only at h
      omega
    · intro h
      have := long_of_bounds (x := a.tvSec + b.tvSec) (by omega) (by omega)
      dsimp only
      omega

/-! ## The difference -/

/-- A second is borrowed, and there is one to borrow. -/
def Borrows (a b : Timespec) : Prop := a.tvNsec < b.tvNsec ∧ b.tvSec < a.tvSec

instance (a b : Timespec) : Decidable (Borrows a b) := inferInstanceAs (Decidable (_ ∧ _))

theorem timespecSub_eq {a b : Timespec} (ha : a.Valid) (hb : b.Valid) :
    timespecSub a b =
      if a.ns < b.ns then ⟨0, 0⟩
      else if a.tvNsec < b.tvNsec then
        ⟨a.tvSec - b.tvSec - 1, 999999999 + a.tvNsec - b.tvNsec⟩
      else ⟨a.tvSec - b.tvSec, a.tvNsec - b.tvNsec⟩ := by
  obtain ⟨h1, h2, h3, h4⟩ := ha
  obtain ⟨g1, g2, g3, g4⟩ := hb
  unfold timespecSub timespecSubSec Timespec.ns
  by_cases hborrow : a.tvNsec < b.tvNsec
  · have hin : long (b.tvNsec - a.tvNsec) = b.tvNsec - a.tvNsec :=
      long_of_bounds (by omega) (by omega)
    have hout : long (999999999 - (b.tvNsec - a.tvNsec)) = 999999999 + a.tvNsec - b.tvNsec := by
      rw [long_of_bounds (by omega) (by omega)]
      omega
    have hsec : long (a.tvSec - 1) = a.tvSec - 1 := long_of_bounds (by omega) (by omega)
    rw [if_pos hborrow, if_pos hborrow, hin, hout, hsec]
    by_cases hzero : a.tvSec = 0
    · rw [if_pos hzero, if_pos (by omega)]
    · rw [if_neg hzero]
      dsimp only
      by_cases hlt : a.tvSec - 1 < b.tvSec
      · rw [if_pos hlt, if_pos (by omega)]
      · have hdiff : long (a.tvSec - 1 - b.tvSec) = a.tvSec - b.tvSec - 1 := by
          rw [long_of_bounds (by omega) (by omega)]
          omega
        rw [if_neg hlt, if_neg (by omega), hdiff]
  · have hnsec : long (a.tvNsec - b.tvNsec) = a.tvNsec - b.tvNsec :=
      long_of_bounds (by omega) (by omega)
    rw [if_neg hborrow, if_neg hborrow, hnsec]
    dsimp only
    by_cases hlt : a.tvSec < b.tvSec
    · rw [if_pos hlt, if_pos (by omega)]
    · have hdiff : long (a.tvSec - b.tvSec) = a.tvSec - b.tvSec :=
        long_of_bounds (by omega) (by omega)
      rw [if_neg hlt, if_neg (by omega), hdiff]

theorem timespecSub_valid {a b : Timespec} (ha : a.Valid) (hb : b.Valid) :
    (timespecSub a b).Valid := by
  obtain ⟨h1, h2, h3, h4⟩ := id ha
  obtain ⟨g1, g2, g3, g4⟩ := id hb
  rw [timespecSub_eq ha hb]
  unfold Timespec.ns
  split
  · exact Valid.zero
  · split <;> constructor <;> dsimp only <;> omega

theorem timespecSub_ns {a b : Timespec} (ha : a.Valid) (hb : b.Valid) :
    (timespecSub a b).ns =
      max 0 (a.ns - b.ns) - (if Borrows a b then 1 else 0) := by
  obtain ⟨h1, h2, h3, h4⟩ := id ha
  obtain ⟨g1, g2, g3, g4⟩ := id hb
  rw [timespecSub_eq ha hb]
  unfold Timespec.ns
  split
  · rw [if_neg (by unfold Borrows; omega)]
    dsimp only
    omega
  · split
    · rw [if_pos (by unfold Borrows; omega)]
      dsimp only
      omega
    · rw [if_neg (by unfold Borrows; omega)]
      dsimp only
      omega

theorem timespecSub_ns_iff {a b : Timespec} (ha : a.Valid) (hb : b.Valid) :
    (timespecSub a b).ns = max 0 (a.ns - b.ns) ↔ ¬ Borrows a b := by
  rw [timespecSub_ns ha hb]
  by_cases h : Borrows a b
  · rw [if_pos h]
    refine iff_of_false ?_ (not_not_intro h)
    omega
  · rw [if_neg h, Int.sub_zero]
    exact iff_of_true rfl h

/-! ## One millisecond after the other -/

/-- What is left of a time after `n` intervals. -/
def elapse (n : Nat) (a : Timespec) : Timespec := (timespecSub · interval)^[n] a

theorem elapse_succ (n : Nat) (a : Timespec) :
    elapse (n + 1) a = timespecSub (elapse n a) interval :=
  Function.iterate_succ_apply' _ n a

theorem elapse_add (m n : Nat) (a : Timespec) : elapse (m + n) a = elapse m (elapse n a) :=
  Function.iterate_add_apply _ m n a

theorem interval_valid : interval.Valid := ⟨by decide, by decide, by decide, by decide⟩

theorem interval_ns : interval.ns = 1000000 := by decide

theorem borrows_interval {a : Timespec} : Borrows a interval ↔ a.tvNsec < 1000000 ∧ 0 < a.tvSec :=
  Iff.rfl

theorem elapse_valid {a : Timespec} (ha : a.Valid) (n : Nat) : (elapse n a).Valid := by
  induction n with
  | zero => exact ha
  | succ n ih =>
    rw [elapse_succ]
    exact timespecSub_valid ih interval_valid

/-- As long as the nanoseconds suffice, only they change. They may be more than a second here. -/
theorem elapse_of_le {a : Timespec} {n : Nat} (h0 : 0 ≤ a.tvSec) (h1 : a.tvSec < 2 ^ 63)
    (h2 : a.tvNsec < 2 ^ 63) (hn : (n : Int) * 1000000 ≤ a.tvNsec) :
    elapse n a = ⟨a.tvSec, a.tvNsec - n * 1000000⟩ := by
  induction n with
  | zero => simp [elapse]
  | succ n ih =>
    have hsec : long (a.tvSec - 0) = a.tvSec := by
      rw [Int.sub_zero]
      exact long_of_bounds (by omega) h1
    have hnsec : long (a.tvNsec - n * 1000000 - 1000000) = a.tvNsec - n * 1000000 - 1000000 :=
      long_of_bounds (by omega) (by omega)
    rw [elapse_succ, ih (by omega)]
    unfold timespecSub timespecSubSec
    have hi : interval = ⟨0, 1000000⟩ := by decide
    rw [hi]
    dsimp only
    rw [if_neg (by omega), if_neg (by omega), hsec, hnsec]
    congr 1
    push_cast
    omega

theorem elapse_ns_le {a : Timespec} (ha : a.Valid) (n : Nat) :
    (elapse n a).ns ≤ max 0 (a.ns - n * 1000000) := by
  induction n with
  | zero =>
    simp only [elapse, Function.iterate_zero_apply]
    omega
  | succ n ih =>
    rw [elapse_succ, timespecSub_ns (elapse_valid ha n) interval_valid, interval_ns]
    split <;> omega

theorem elapse_ns_of_sec {a : Timespec} (ha : a.Valid) (hsec : a.tvSec = 0) (n : Nat) :
    (elapse n a).tvSec = 0 ∧ (elapse n a).ns = max 0 (a.ns - n * 1000000) := by
  induction n with
  | zero =>
    have := ha.ns_nonneg
    refine ⟨hsec, ?_⟩
    simp only [elapse, Function.iterate_zero_apply]
    omega
  | succ n ih =>
    obtain ⟨h0, hns⟩ := ih
    have hvalid := elapse_valid ha n
    have hns' := timespecSub_ns hvalid interval_valid
    rw [if_neg (by rw [borrows_interval]; omega), interval_ns, hns] at hns'
    rw [elapse_succ]
    have hval := timespecSub_valid hvalid interval_valid
    have hlt : (timespecSub (elapse n a) interval).ns < 1000000000 := by
      have hnsec := hvalid.nsec_le
      have hdef : (elapse n a).ns = (elapse n a).tvNsec := by
        unfold Timespec.ns
        omega
      omega
    have h1 := hval.sec_nonneg
    have h2 := hval.nsec_nonneg
    refine ⟨?_, by omega⟩
    unfold Timespec.ns at hlt
    omega

/-- Once a second has been borrowed, the time stays short until it is used up. -/
theorem elapse_ns_lt {a : Timespec} (ha : a.Valid) {n : Nat} (hsec : 0 < a.tvSec)
    (hn : a.tvNsec < n * 1000000) (hlt : (n : Int) * 1000000 < a.ns) :
    (elapse n a).ns < a.ns - n * 1000000 := by
  have hnsec := ha.nsec_nonneg
  -- the number of intervals before the borrow, and after it
  let m := (a.tvNsec / 1000000).toNat
  have hm : (m : Int) * 1000000 ≤ a.tvNsec ∧ a.tvNsec < (m + 1) * 1000000 := by
    simp only [m]
    omega
  obtain ⟨k, rfl⟩ : ∃ k, n = k + (m + 1) := ⟨n - (m + 1), by omega⟩
  have hbefore : elapse m a = ⟨a.tvSec, a.tvNsec - m * 1000000⟩ :=
    elapse_of_le ha.sec_nonneg ha.sec_lt (by have := ha.nsec_le; omega) hm.1
  have hborrow : (elapse (m + 1) a).ns = a.ns - (m + 1) * 1000000 - 1 := by
    rw [elapse_succ, timespecSub_ns (elapse_valid ha m) interval_valid, interval_ns, hbefore,
      if_pos (by rw [borrows_interval]; dsimp only; omega)]
    unfold Timespec.ns at hlt ⊢
    dsimp only
    omega
  have hafter := elapse_ns_le (elapse_valid ha (m + 1)) k
  rw [← elapse_add, hborrow] at hafter
  push_cast at hlt ⊢
  omega

/-- The intervals of `n` milliseconds are subtracted exactly if no second is borrowed on the way
or nothing is left in the end. -/
theorem elapse_ns_iff {a : Timespec} (ha : a.Valid) (n : Nat) :
    (elapse n a).ns = max 0 (a.ns - n * 1000000) ↔
      a.tvSec = 0 ∨ (n : Int) * 1000000 ≤ a.tvNsec ∨ a.ns ≤ n * 1000000 := by
  have hsec := ha.sec_nonneg
  have hnsec := ha.nsec_nonneg
  constructor
  · intro h
    by_contra hcon
    have hlt := elapse_ns_lt ha (n := n) (by omega) (by omega) (by omega)
    omega
  · rintro (h | h | h)
    · exact (elapse_ns_of_sec ha h n).2
    · rw [elapse_of_le hsec ha.sec_lt (by have := ha.nsec_le; omega) h]
      unfold Timespec.ns
      dsimp only
      omega
    · have hle := elapse_ns_le ha n
      have hnonneg := (elapse_valid ha n).ns_nonneg
      omega

/-! ## The laws together -/

/-- What the sum, the difference and `n` intervals in a row should be. -/
structure ExactAt (a b : Timespec) (n : Nat) : Prop where
  add_nsec : 0 ≤ (timespecAdd a b).tvNsec ∧ (timespecAdd a b).tvNsec ≤ 999999999
  sub_nsec : 0 ≤ (timespecSub a b).tvNsec ∧ (timespecSub a b).tvNsec ≤ 999999999
  add : (timespecAdd a b).ns = a.ns + b.ns
  sub : (timespecSub a b).ns = max 0 (a.ns - b.ns)
  intervals : (elapse n a).ns = max 0 (a.ns - n * 1000000)

theorem timespec_exact_iff (a b : Timespec) (ha : a.Valid) (hb : b.Valid) (n : Nat) :
    ExactAt a b n ↔
      a.ns + b.ns < 2 ^ 63 * 1000000000 ∧ ¬ Borrows a b ∧
        (a.tvSec = 0 ∨ (n : Int) * 1000000 ≤ a.tvNsec ∨ a.ns ≤ n * 1000000) := by
  have hval := timespecSub_valid ha hb
  rw [← timespecAdd_ns_iff ha hb, ← timespecSub_ns_iff ha hb, ← elapse_ns_iff ha]
  constructor
  · intro h
    exact ⟨h.add, h.sub, h.intervals⟩
  · rintro ⟨hadd, hsub, hn⟩
    exact ⟨timespecAdd_nsec ha hb, ⟨hval.nsec_nonneg, hval.nsec_le⟩, hadd, hsub, hn⟩

/-- A second less one nanosecond, and three milliseconds of a second. -/
theorem timespec_exact_example :
    ExactAt ⟨1, 5000000⟩ ⟨1, 1⟩ 3 :=
  (timespec_exact_iff ⟨1, 5000000⟩ ⟨1, 1⟩ ⟨by decide, by decide, by decide, by decide⟩
    ⟨by decide, by decide, by decide, by decide⟩ 3).mpr
    ⟨by decide, by decide, .inr (.inl (by decide))⟩

/-- One second less one nanosecond is 999999998 nanoseconds here. -/
theorem borrow_loses :
    Valid ⟨1, 0⟩ ∧ Valid ⟨0, 1⟩ ∧
      (timespecSub ⟨1, 0⟩ ⟨0, 1⟩).ns ≠ max 0 (Timespec.ns ⟨1, 0⟩ - Timespec.ns ⟨0, 1⟩) ∧
      (elapse 1 ⟨1, 0⟩).ns ≠ max 0 (Timespec.ns ⟨1, 0⟩ - 1 * 1000000) :=
  ⟨⟨by decide, by decide, by decide, by decide⟩, ⟨by decide, by decide, by decide, by decide⟩,
    by decide, by decide⟩

end Lyre.Time

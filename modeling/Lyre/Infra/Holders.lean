import Mathlib.Algebra.BigOperators.Group.Finset.Basic
import Mathlib.Data.Finset.Card
import Mathlib.Data.Finset.Filter
import Mathlib.Data.Finset.Insert
import Mathlib.Data.List.Count
import Mathlib.Logic.Function.Basic

/-!
# How many places hold a value

A table is a function from places to values, where a place may be empty. `holders` counts the places
of a finite set that hold a value. What one needs is how the number changes with one place
(`holders_update`), and that it is zero if and only if no place holds the value.
-/

namespace Infra

variable {ι δ : Type*} [DecidableEq δ] {S : Finset ι} {f g : ι → Option δ} {i : ι}
  {d : δ} {v : Option δ}

/-- The number of places that hold a value. -/
def holders (S : Finset ι) (f : ι → Option δ) (d : δ) : Nat := (S.filter fun i => f i = some d).card

theorem holders_le_card : holders S f d ≤ S.card := Finset.card_filter_le _ _

theorem holders_congr (h : ∀ i ∈ S, f i = g i) : holders S f d = holders S g d := by
  unfold holders
  congr 1
  refine Finset.filter_congr fun i hi => ?_
  rw [h i hi]

theorem holders_le {T : Finset ι} (hST : S ⊆ T) (h : ∀ i ∈ S, f i = some d → g i = some d) :
    holders S f d ≤ holders T g d := by
  refine Finset.card_le_card fun i hi => ?_
  obtain ⟨hS, hf⟩ := Finset.mem_filter.mp hi
  exact Finset.mem_filter.mpr ⟨hST hS, h i hS hf⟩

theorem holders_pos : 0 < holders S f d ↔ ∃ i ∈ S, f i = some d := by
  rw [holders, Finset.card_pos]
  constructor
  · rintro ⟨i, hi⟩
    exact ⟨i, Finset.mem_filter.mp hi⟩
  · rintro ⟨i, hi⟩
    exact ⟨i, Finset.mem_filter.mpr hi⟩

theorem holders_eq_zero : holders S f d = 0 ↔ ∀ i ∈ S, f i ≠ some d := by
  rw [holders, Finset.card_eq_zero, Finset.filter_eq_empty_iff]

theorem holders_erase [DecidableEq ι] (hi : i ∈ S) :
    holders S f d = holders (S.erase i) f d + if f i = some d then 1 else 0 := by
  unfold holders
  conv_lhs => rw [← Finset.insert_erase hi]
  rw [Finset.filter_insert]
  split
  · next h =>
    refine Finset.card_insert_of_notMem fun hmem => ?_
    exact Finset.notMem_erase i S (Finset.mem_of_mem_filter i hmem)
  · rfl

/-- **One place is changed.** -/
theorem holders_update [DecidableEq ι] (hi : i ∈ S) :
    holders S (Function.update f i v) d + (if f i = some d then 1 else 0)
      = holders S f d + if v = some d then 1 else 0 := by
  have hrest : holders (S.erase i) (Function.update f i v) d = holders (S.erase i) f d := by
    refine holders_congr fun j hj => ?_
    exact Function.update_of_ne (Finset.ne_of_mem_erase hj) v f
  rw [holders_erase hi, holders_erase (f := f) hi, hrest, Function.update_self]
  omega

/-- **All places of a list lose the value.** -/
theorem holders_add_length [DecidableEq ι] {l : List ι} (hl : l.Nodup) (hS : ∀ i ∈ l, i ∈ S)
    (hf : ∀ i ∈ l, f i = some d) (hg : ∀ i ∈ l, g i ≠ some d) (hrest : ∀ i ∈ S, i ∉ l → g i = f i) :
    holders S g d + l.length = holders S f d := by
  have hsplit : S.filter (fun i => f i = some d)
      = S.filter (fun i => g i = some d) ∪ l.toFinset := by
    ext i
    rw [Finset.mem_union, Finset.mem_filter, Finset.mem_filter, List.mem_toFinset]
    by_cases hi : i ∈ l
    · exact iff_of_true ⟨hS i hi, hf i hi⟩ (Or.inr hi)
    · constructor
      · rintro ⟨hiS, hfi⟩
        exact Or.inl ⟨hiS, (hrest i hiS hi).trans hfi⟩
      · rintro (⟨hiS, hgi⟩ | hil)
        · exact ⟨hiS, (hrest i hiS hi).symm.trans hgi⟩
        · exact absurd hil hi
  have hdisj : Disjoint (S.filter fun i => g i = some d) l.toFinset := by
    refine Finset.disjoint_left.mpr fun i hi hil => ?_
    exact hg i (List.mem_toFinset.mp hil) (Finset.mem_filter.mp hi).2
  unfold holders
  rw [hsplit, Finset.card_union_of_disjoint hdisj, List.toFinset_card_of_nodup hl]

theorem holders_subset {T : Finset ι} (hST : S ⊆ T) (h : ∀ i ∈ T, i ∉ S → f i = none) :
    holders T f d = holders S f d := by
  unfold holders
  congr 1
  refine Finset.ext fun i => ?_
  rw [Finset.mem_filter, Finset.mem_filter]
  constructor
  · rintro ⟨hT, hf⟩
    refine ⟨?_, hf⟩
    by_contra hS
    rw [h i hT hS] at hf
    exact absurd hf (by simp)
  · rintro ⟨hS, hf⟩
    exact ⟨hST hS, hf⟩

end Infra

/-!
## Counts that change by one

How often a condition holds below `n`, and sums of such counts, when one index changes.
-/

namespace Infra

variable {p q : Nat → Bool} {n i : Nat}

/-- The number of indices below `n` at which the condition holds. -/
def tally (p : Nat → Bool) (n : Nat) : Nat := (List.range n).countP p

theorem tally_succ (p : Nat → Bool) (n : Nat) : tally p (n + 1) = tally p n + if p n then 1 else 0 := by
  rw [tally, List.range_succ, List.countP_append, List.countP_singleton]
  rfl

theorem tally_congr (h : ∀ j < n, q j = p j) : tally q n = tally p n := by
  induction n with
  | zero => rfl
  | succ n ih => rw [tally_succ, tally_succ, ih fun j hj => h j (by omega), h n (by omega)]

theorem tally_clear (hi : i < n) (hp : p i = true) (hq : q i = false)
    (h : ∀ j < n, j ≠ i → q j = p j) : tally q n + 1 = tally p n := by
  induction n with
  | zero => exact absurd hi (Nat.not_lt_zero i)
  | succ n ih =>
    rw [tally_succ, tally_succ]
    rcases Nat.lt_or_eq_of_le (Nat.le_of_lt_succ hi) with hlt | rfl
    · rw [h n (by omega) (by omega), ← ih hlt fun j hj => h j (by omega)]
      omega
    · rw [tally_congr fun j hj => h j (by omega) (by omega), hp, hq]
      rfl

theorem exists_of_tally_pos (h : 0 < tally p n) : ∃ i < n, p i = true := by
  obtain ⟨i, hi, hp⟩ := List.countP_pos_iff.mp h
  exact ⟨i, List.mem_range.mp hi, hp⟩

theorem tally_pos (hi : i < n) (hp : p i = true) : 0 < tally p n :=
  List.countP_pos_iff.mpr ⟨i, List.mem_range.mpr hi, hp⟩

theorem sum_range_change {f g : Nat → Nat} (hi : i < n) (h : ∀ j < n, j ≠ i → g j = f j) :
    (Finset.range n).sum g + f i = (Finset.range n).sum f + g i := by
  have hrest : ((Finset.range n).erase i).sum g = ((Finset.range n).erase i).sum f :=
    Finset.sum_congr rfl fun j hj =>
      h j (Finset.mem_range.mp (Finset.mem_of_mem_erase hj)) (Finset.ne_of_mem_erase hj)
  rw [← Finset.add_sum_erase _ g (Finset.mem_range.mpr hi),
    ← Finset.add_sum_erase _ f (Finset.mem_range.mpr hi), hrest]
  have hswap : ∀ a b c : Nat, a + c + b = b + c + a := by omega
  exact hswap _ _ _

theorem sum_range_pos {f : Nat → Nat} (h : 0 < (Finset.range n).sum f) : ∃ i < n, 0 < f i := by
  by_contra hall
  push Not at hall
  have hzero : (Finset.range n).sum f = 0 :=
    Finset.sum_eq_zero fun i hi => Nat.le_zero.mp (hall i (Finset.mem_range.mp hi))
  omega

end Infra

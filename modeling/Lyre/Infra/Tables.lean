import Mathlib.Algebra.Group.Nat.Defs
import Mathlib.Data.List.Nodup
import Mathlib.Tactic.Common

/-!
# Trees of tables

A table is a row of `width` words, and a word is the number of a further table, or of a leaf where
the tree ends. There is nothing behind the word 0. `lookup` goes down a tree to the leaf with a given
index, `blocks` are all tables and leaves of a tree, and `tables` those that are read on the way. If
the blocks of a tree are distinct, an index has a leaf of its own (`lookup_inj`), which is no table
(`lookup_notMem_tables`).
-/

namespace Infra.Tables

section Tree

variable (word : Nat → Nat → Nat) (width : Nat)

/-- The leaf with index `k` of the tree of depth `d` below `b`, or 0. -/
def lookup : Nat → Nat → Nat → Nat
  | 0, b, _ => b
  | d + 1, b, k => if b = 0 then 0 else lookup d (word b (k / width ^ d)) (k % width ^ d)

/-- The tables and leaves of a tree. -/
def blocks : Nat → Nat → List Nat
  | 0, b => if b = 0 then [] else [b]
  | d + 1, b => if b = 0 then [] else b :: (List.range width).flatMap fun i => blocks d (word b i)

/-- The tables. -/
def tables : Nat → Nat → List Nat
  | 0, _ => []
  | d + 1, b => if b = 0 then [] else b :: (List.range width).flatMap fun i => tables d (word b i)

end Tree

variable {word word' : Nat → Nat → Nat} {width d b t k k' : Nat}

@[simp] theorem lookup_zero (k : Nat) : lookup word width d 0 k = 0 := by
  cases d with
  | zero => rfl
  | succ d => exact if_pos rfl

@[simp] theorem blocks_zero : blocks word width d 0 = [] := by
  cases d with
  | zero => rfl
  | succ d => exact if_pos rfl

@[simp] theorem tables_zero : tables word width d 0 = [] := by
  cases d with
  | zero => rfl
  | succ d => exact if_pos rfl

theorem lookup_succ (hb : b ≠ 0) (k : Nat) : lookup word width (d + 1) b k =
    lookup word width d (word b (k / width ^ d)) (k % width ^ d) := if_neg hb

theorem blocks_succ (hb : b ≠ 0) : blocks word width (d + 1) b =
    b :: (List.range width).flatMap fun i => blocks word width d (word b i) := if_neg hb

theorem tables_succ (hb : b ≠ 0) : tables word width (d + 1) b =
    b :: (List.range width).flatMap fun i => tables word width d (word b i) := if_neg hb

theorem div_lt_width (hk : k < width ^ (d + 1)) : k / width ^ d < width :=
  Nat.div_lt_of_lt_mul (by rwa [Nat.pow_succ] at hk)

theorem mod_lt_pow (hk : k < width ^ (d + 1)) : k % width ^ d < width ^ d := by
  refine Nat.mod_lt k (Nat.pos_of_ne_zero fun h0 => ?_)
  rw [Nat.pow_succ, h0, Nat.zero_mul] at hk
  exact Nat.not_lt_zero k hk

theorem root_mem (hb : b ≠ 0) : b ∈ blocks word width d b := by
  cases d with
  | zero =>
    rw [blocks, if_neg hb]
    exact List.mem_singleton_self b
  | succ d =>
    rw [blocks_succ hb]
    exact List.mem_cons_self

theorem mem_blocks_entry {i : Nat} (hb : b ≠ 0) (hi : i < width)
    (h : t ∈ blocks word width d (word b i)) : t ∈ blocks word width (d + 1) b := by
  rw [blocks_succ hb]
  exact List.mem_cons_of_mem b (List.mem_flatMap.mpr ⟨i, List.mem_range.mpr hi, h⟩)

theorem mem_tables_entry {i : Nat} (hb : b ≠ 0) (hi : i < width)
    (h : t ∈ tables word width d (word b i)) : t ∈ tables word width (d + 1) b := by
  rw [tables_succ hb]
  exact List.mem_cons_of_mem b (List.mem_flatMap.mpr ⟨i, List.mem_range.mpr hi, h⟩)

theorem tables_subset (h : t ∈ tables word width d b) : t ∈ blocks word width d b := by
  induction d generalizing b with
  | zero => exact absurd h (List.not_mem_nil)
  | succ d ih =>
    by_cases hb : b = 0
    · subst hb
      simp at h
    · rw [tables_succ hb] at h
      rcases List.mem_cons.mp h with rfl | h
      · exact root_mem hb
      · obtain ⟨i, hi, hmem⟩ := List.mem_flatMap.mp h
        exact mem_blocks_entry hb (List.mem_range.mp hi) (ih hmem)

theorem lookup_mem (hk : k < width ^ d) (hne : lookup word width d b k ≠ 0) :
    lookup word width d b k ∈ blocks word width d b := by
  induction d generalizing b k with
  | zero => exact root_mem hne
  | succ d ih =>
    have hb : b ≠ 0 := by
      rintro rfl
      exact hne (lookup_zero k)
    rw [lookup_succ hb] at hne ⊢
    exact mem_blocks_entry hb (div_lt_width hk) (ih (mod_lt_pow hk) hne)

/-! ## Distinct blocks -/

theorem disjoint_of_nodup_flatMap {f : Nat → List Nat} {n i j : Nat}
    (h : ((List.range n).flatMap f).Nodup) (hi : i < n) (hj : j < n) (hne : i ≠ j) :
    List.Disjoint (f i) (f j) := by
  have key : ∀ {i j : Nat}, i < j → j < n → List.Disjoint (f i) (f j) := by
    intro i j hij hj
    have hpair := List.pairwise_iff_getElem.mp (List.nodup_flatMap.mp h).2 i j
      (by rw [List.length_range]; omega) (by rwa [List.length_range]) hij
    rwa [List.getElem_range, List.getElem_range] at hpair
  rcases Nat.lt_or_gt_of_ne hne with hlt | hgt
  · exact key hlt hj
  · exact fun x hx hx' => key hgt hi hx' hx

theorem entry_inj {i j : Nat} (hb : b ≠ 0) (h : (blocks word width (d + 1) b).Nodup)
    (hi : i < width) (hj : j < width) (hti : t ∈ blocks word width d (word b i))
    (htj : t ∈ blocks word width d (word b j)) : i = j := by
  rw [blocks_succ hb, List.nodup_cons] at h
  by_contra hne
  exact disjoint_of_nodup_flatMap h.2 hi hj hne hti htj

theorem entry_nodup {i : Nat} (hb : b ≠ 0) (h : (blocks word width (d + 1) b).Nodup)
    (hi : i < width) : (blocks word width d (word b i)).Nodup := by
  rw [blocks_succ hb, List.nodup_cons, List.nodup_flatMap] at h
  exact h.2.1 i (List.mem_range.mpr hi)

theorem root_notMem_entry {i : Nat} (hb : b ≠ 0) (h : (blocks word width (d + 1) b).Nodup)
    (hi : i < width) : b ∉ blocks word width d (word b i) := by
  rw [blocks_succ hb, List.nodup_cons] at h
  exact fun hmem => h.1 (List.mem_flatMap.mpr ⟨i, List.mem_range.mpr hi, hmem⟩)

/-- **Every index has a leaf of its own.** -/
theorem lookup_inj (h : (blocks word width d b).Nodup) (hk : k < width ^ d) (hk' : k' < width ^ d)
    (hne : lookup word width d b k ≠ 0)
    (heq : lookup word width d b k = lookup word width d b k') : k = k' := by
  induction d generalizing b k k' with
  | zero =>
    rw [Nat.pow_zero] at hk hk'
    omega
  | succ d ih =>
    have hb : b ≠ 0 := by
      rintro rfl
      exact hne (lookup_zero k)
    rw [lookup_succ hb] at hne heq
    rw [lookup_succ hb] at heq
    have hmem := lookup_mem (mod_lt_pow hk) hne
    have hmem' := lookup_mem (mod_lt_pow hk') (heq ▸ hne)
    rw [← heq] at hmem'
    have hdiv := entry_inj hb h (div_lt_width hk) (div_lt_width hk') hmem hmem'
    rw [← hdiv] at heq
    have hmod := ih (entry_nodup hb h (div_lt_width hk)) (mod_lt_pow hk) (mod_lt_pow hk') hne heq
    rw [← Nat.div_add_mod k (width ^ d), hdiv, hmod, Nat.div_add_mod]

/-- **A leaf is no table.** -/
theorem lookup_notMem_tables (h : (blocks word width d b).Nodup) (hk : k < width ^ d)
    (hne : lookup word width d b k ≠ 0) : lookup word width d b k ∉ tables word width d b := by
  induction d generalizing b k with
  | zero => exact List.not_mem_nil
  | succ d ih =>
    have hb : b ≠ 0 := by
      rintro rfl
      exact hne (lookup_zero k)
    rw [lookup_succ hb] at hne ⊢
    have hmem := lookup_mem (mod_lt_pow hk) hne
    rw [tables_succ hb]
    intro htable
    rcases List.mem_cons.mp htable with hroot | htable
    · refine root_notMem_entry hb h (div_lt_width hk) ?_
      rw [hroot] at hmem
      exact hmem
    · obtain ⟨i, hi, hti⟩ := List.mem_flatMap.mp htable
      have hi' := List.mem_range.mp hi
      have heq := entry_inj hb h hi' (div_lt_width hk) (tables_subset hti) hmem
      rw [heq] at hti
      exact ih (entry_nodup hb h (div_lt_width hk)) (mod_lt_pow hk) hne hti

theorem flatMap_range_single {f : Nat → List Nat} {n x : Nat} (hx : x < n)
    (h : ∀ i < n, i ≠ x → f i = []) : (List.range n).flatMap f = f x := by
  induction n with
  | zero => exact absurd hx (Nat.not_lt_zero x)
  | succ n ih =>
    rw [List.range_succ, List.flatMap_append, List.flatMap_singleton]
    rcases Nat.lt_or_eq_of_le (Nat.le_of_lt_succ hx) with hlt | rfl
    · rw [ih hlt fun i hi => h i (Nat.lt_succ_of_lt hi), h n (Nat.lt_succ_self n) (by omega),
        List.append_nil]
    · rw [List.flatMap_eq_nil_iff.mpr fun i hi => ?_, List.nil_append]
      have hi' := List.mem_range.mp hi
      exact h i (by omega) (by omega)

/-! ## Other words change -/

theorem lookup_congr (h : ∀ t ∈ tables word width d b, ∀ i < width, word' t i = word t i)
    (hk : k < width ^ d) : lookup word' width d b k = lookup word width d b k := by
  induction d generalizing b k with
  | zero => rfl
  | succ d ih =>
    by_cases hb : b = 0
    · subst hb
      rw [lookup_zero, lookup_zero]
    · rw [lookup_succ hb, lookup_succ hb,
        h b (by rw [tables_succ hb]; exact List.mem_cons_self) _ (div_lt_width hk)]
      exact ih (fun t ht => h t (mem_tables_entry hb (div_lt_width hk) ht)) (mod_lt_pow hk)

theorem blocks_congr (h : ∀ t ∈ tables word width d b, ∀ i < width, word' t i = word t i) :
    blocks word' width d b = blocks word width d b := by
  induction d generalizing b with
  | zero => rfl
  | succ d ih =>
    by_cases hb : b = 0
    · subst hb
      rw [blocks_zero, blocks_zero]
    · rw [blocks_succ hb, blocks_succ hb]
      congr 1
      refine List.flatMap_congr fun i hi => ?_
      have hi' := List.mem_range.mp hi
      rw [h b (by rw [tables_succ hb]; exact List.mem_cons_self) i hi']
      exact ih fun t ht => h t (mem_tables_entry hb hi' ht)

theorem tables_congr (h : ∀ t ∈ tables word width d b, ∀ i < width, word' t i = word t i) :
    tables word' width d b = tables word width d b := by
  induction d generalizing b with
  | zero => rfl
  | succ d ih =>
    by_cases hb : b = 0
    · subst hb
      rw [tables_zero, tables_zero]
    · rw [tables_succ hb, tables_succ hb]
      congr 1
      refine List.flatMap_congr fun i hi => ?_
      have hi' := List.mem_range.mp hi
      rw [h b (by rw [tables_succ hb]; exact List.mem_cons_self) i hi']
      exact ih fun t ht => h t (mem_tables_entry hb hi' ht)

end Infra.Tables

import Lyre.Infra.Tables

/-!
# The block map of ext2

The blocks of a file are numbered. The first twelve are named by the inode itself, the others are
leaves of three trees of tables of `L` words: of depth one, two and three, which begin at the words
12, 13 and 14 of the inode. `locate` says where the number of a block is, and `BlockMap.get` what it
is; a block behind a table that is absent is absent, too.
-/

namespace Lyre.Ext2

open Infra.Tables

/-- The numbers in the inode, and the words of the tables on the device. -/
structure BlockMap where
  roots : Nat → Nat
  word : Nat → Nat → Nat
  /-- The words of a table. -/
  width : Nat

/-- The depth of the tree that begins at a word of the inode. -/
def depth (slot : Nat) : Nat := slot - 11

/-- The word of the inode that leads to a file block, and the index of the block in its tree. -/
def locate (width i : Nat) : Nat × Nat :=
  if i < 12 then (i, 0)
  else if i < 12 + width then (12, i - 12)
  else if i < 12 + width + width ^ 2 then (13, i - 12 - width)
  else (14, i - 12 - width - width ^ 2)

/-- The number of blocks that a file can have. -/
def maxblocks (width : Nat) : Nat := 12 + width + width ^ 2 + width ^ 3

variable {width i j : Nat}

/-- The leaves of the tree of a slot are `width ^ depth slot` in number. -/
theorem locate_lt (hi : i < maxblocks width) :
    (locate width i).1 < 15 ∧ (locate width i).2 < width ^ depth (locate width i).1 := by
  unfold maxblocks at hi
  unfold locate
  split_ifs with h₁ h₂ h₃
  · refine ⟨by dsimp only; omega, ?_⟩
    rw [show depth i = 0 by unfold depth; omega]
    exact Nat.zero_lt_one
  · refine ⟨show 12 < 15 by decide, ?_⟩
    rw [show depth 12 = 1 from rfl, Nat.pow_one]
    dsimp only
    omega
  · refine ⟨show 13 < 15 by decide, ?_⟩
    rw [show depth 13 = 2 from rfl]
    dsimp only
    omega
  · refine ⟨show 14 < 15 by decide, ?_⟩
    rw [show depth 14 = 3 from rfl]
    dsimp only
    omega

theorem locate_inj (h : locate width i = locate width j) : i = j := by
  unfold locate at h
  split_ifs at h <;> simp only [Prod.mk.injEq] at h <;> omega

namespace BlockMap

variable {m m' : BlockMap}

/-- The number of a file block, or 0. -/
def get (m : BlockMap) (i : Nat) : Nat :=
  lookup m.word m.width (depth (locate m.width i).1) (m.roots (locate m.width i).1) (locate m.width i).2

/-- The blocks of a file, those of the tables included. -/
def all (m : BlockMap) : List Nat :=
  (List.range 15).flatMap fun slot => blocks m.word m.width (depth slot) (m.roots slot)

/-- A table of the file. -/
def IsTable (m : BlockMap) (t : Nat) : Prop :=
  ∃ slot < 15, t ∈ tables m.word m.width (depth slot) (m.roots slot)

theorem slot_nodup {slot : Nat} (h : m.all.Nodup) (hs : slot < 15) :
    (blocks m.word m.width (depth slot) (m.roots slot)).Nodup :=
  (List.nodup_flatMap.mp h).1 slot (List.mem_range.mpr hs)

theorem slot_inj {s s' t : Nat} (h : m.all.Nodup) (hs : s < 15) (hs' : s' < 15)
    (ht : t ∈ blocks m.word m.width (depth s) (m.roots s))
    (ht' : t ∈ blocks m.word m.width (depth s') (m.roots s')) : s = s' := by
  by_contra hne
  exact disjoint_of_nodup_flatMap h hs hs' hne ht ht'

theorem get_mem_slot (hi : i < maxblocks m.width) (hne : m.get i ≠ 0) :
    m.get i ∈ blocks m.word m.width (depth (locate m.width i).1) (m.roots (locate m.width i).1) :=
  lookup_mem (locate_lt hi).2 hne

/-- **Two blocks of a file have two numbers.** -/
theorem get_inj (h : m.all.Nodup) (hi : i < maxblocks m.width) (hj : j < maxblocks m.width)
    (hne : m.get i ≠ 0) (heq : m.get i = m.get j) : i = j := by
  have hmem := get_mem_slot hi hne
  have hmem' := get_mem_slot hj (heq ▸ hne)
  rw [← heq] at hmem'
  have hslot := slot_inj h (locate_lt hi).1 (locate_lt hj).1 hmem hmem'
  have hj' := (locate_lt hj).2
  have hkey : m.get i = lookup m.word m.width (depth (locate m.width i).1)
      (m.roots (locate m.width i).1) (locate m.width j).2 := by
    rw [heq, hslot]
    rfl
  rw [← hslot] at hj'
  have hindex := lookup_inj (slot_nodup h (locate_lt hi).1) (locate_lt hi).2 hj' hne hkey
  exact locate_inj (Prod.ext hslot hindex)

/-- **A block of a file is no table of it.** -/
theorem get_not_table (h : m.all.Nodup) (hi : i < maxblocks m.width) (hne : m.get i ≠ 0) :
    ¬ m.IsTable (m.get i) := by
  rintro ⟨slot, hslot, ht⟩
  have heq := slot_inj h hslot (locate_lt hi).1 (tables_subset ht) (get_mem_slot hi hne)
  subst heq
  exact lookup_notMem_tables (slot_nodup h hslot) (locate_lt hi).2 hne ht

theorem get_congr (hroots : ∀ slot < 15, m'.roots slot = m.roots slot) (hwidth : m'.width = m.width)
    (hword : ∀ t, m.IsTable t → ∀ k < m.width, m'.word t k = m.word t k)
    (hi : i < maxblocks m.width) : m'.get i = m.get i := by
  rw [get, get, hwidth, hroots _ (locate_lt hi).1]
  exact lookup_congr (fun t ht => hword t ⟨_, (locate_lt hi).1, ht⟩) (locate_lt hi).2

theorem all_congr (hroots : m'.roots = m.roots) (hwidth : m'.width = m.width)
    (hword : ∀ t, m.IsTable t → ∀ k < m.width, m'.word t k = m.word t k) : m'.all = m.all := by
  rw [all, all, hroots, hwidth]
  refine List.flatMap_congr fun slot hslot => ?_
  exact blocks_congr fun t ht => hword t ⟨slot, List.mem_range.mp hslot, ht⟩

end BlockMap

end Lyre.Ext2

import Lyre.Fs.Ext2
import Lyre.Spec.BlockMap
import Mathlib.Tactic.Ring

/-!
# `ext2fs_inodegetblock` against the block map of ext2

In the direct, single and double ranges the code reads the entries of the map, but it does not look
whether a table on the way is absent: it reads block 0 as the table then. In the triple range the
places that it reads are others (`inodegetblock_reference_iff`).
-/

namespace Lyre.Ext2

open Infra.Bytes Infra.Tables

variable {fs fs' : Ext2fs} {inode : Inode} {i : Nat}

/-- The block map of an inode. -/
def Ext2fs.blockmap (fs : Ext2fs) (inode : Inode) : BlockMap where
  roots := inode.blocks
  word := fs.word
  width := fs.blksize / 4

/-- What the mount makes of the superblock. The shift is one of 32 bits. -/
structure Ext2fs.Mounted (fs : Ext2fs) : Prop where
  blksize : fs.blksize = 1024 * 2 ^ fs.sb.blksize
  shift : fs.sb.blksize ≤ 20

namespace Ext2fs.Mounted

theorem width_eq (h : fs.Mounted) : fs.blksize / 4 = 256 * 2 ^ fs.sb.blksize := by
  rw [h.blksize]
  omega

theorem blksize_eq (h : fs.Mounted) : fs.blksize = 4 * (fs.blksize / 4) := by
  rw [h.width_eq, h.blksize]
  omega

theorem width_ge (h : fs.Mounted) : 256 ≤ fs.blksize / 4 := by
  have := Nat.one_le_two_pow (n := fs.sb.blksize)
  rw [h.width_eq]
  omega

theorem width_lt (h : fs.Mounted) : fs.blksize / 4 < 2 ^ 32 := by
  have := Nat.pow_le_pow_right (show 0 < 2 by decide) h.shift
  rw [h.width_eq]
  omega

theorem blksize_pos (h : fs.Mounted) : 0 < fs.blksize := by
  have := h.width_ge
  omega

theorem u32_width (h : fs.Mounted) : u32 (fs.blksize / 4) = fs.blksize / 4 :=
  Nat.mod_eq_of_lt h.width_lt

end Ext2fs.Mounted

/-! ## Words -/

@[simp] theorem setword_blksize {b k v : Nat} : (fs.setword b k v).blksize = fs.blksize := rfl
@[simp] theorem setword_sb {b k v : Nat} : (fs.setword b k v).sb = fs.sb := rfl

theorem Ext2fs.Mounted.setword {b k v : Nat} (h : fs.Mounted) : (fs.setword b k v).Mounted :=
  ⟨h.blksize, h.shift⟩

theorem setword_device_of_lt {b k v x : Nat} (hx : x < b * fs.blksize) :
    (fs.setword b k v).device x = fs.device x := write_sameOff _ _ _ _ x (by omega)

theorem word_setword (b k v : Nat) : (fs.setword b k v).word b k = u32 v := read_write _ _ 4 v

theorem word_apart {b b' k k' w : Nat} (hk : k < w) (hk' : k' < w) (hne : b ≠ b' ∨ k ≠ k') :
    Apart (b * (4 * w) + k * 4) 4 (b' * (4 * w) + k' * 4) 4 := by
  have key : ∀ {b b' k : Nat}, k < w → b < b' → b * (4 * w) + k * 4 + 4 ≤ b' * (4 * w) := by
    intro b b' k hk hlt
    have hmul : (b + 1) * (4 * w) ≤ b' * (4 * w) := Nat.mul_le_mul_right _ hlt
    rw [Nat.add_mul] at hmul
    omega
  unfold Apart
  rcases Nat.lt_trichotomy b b' with hlt | rfl | hgt
  · have := key hk hlt
    omega
  · omega
  · have := key hk' hgt
    omega

theorem word_setword_of_ne {b b' k k' v : Nat} (h : fs.Mounted) (hk : k < fs.blksize / 4)
    (hk' : k' < fs.blksize / 4) (hne : b ≠ b' ∨ k ≠ k') :
    (fs.setword b k v).word b' k' = fs.word b' k' := by
  have hap := word_apart hk hk' hne
  rw [← h.blksize_eq] at hap
  exact read_sameOff (write_sameOff _ _ _ _) hap

theorem word_setword_ite {b b' k k' v : Nat} (h : fs.Mounted) (hk : k < fs.blksize / 4)
    (hk' : k' < fs.blksize / 4) :
    (fs.setword b k v).word b' k' = if b' = b ∧ k' = k then u32 v else fs.word b' k' := by
  split_ifs with heq
  · rw [heq.1, heq.2, word_setword]
  · exact word_setword_of_ne h hk hk' (by omega)

theorem blocks_setBlocks (slot v : Nat) : (inode.setBlocks slot v).blocks slot = u32 v :=
  read_write _ _ 4 v

theorem blocks_setBlocks_of_ne {slot slot' v : Nat} (hne : slot ≠ slot') :
    (inode.setBlocks slot v).blocks slot' = inode.blocks slot' :=
  read_sameOff (write_sameOff _ _ _ _) (by unfold Apart; omega)

/-! ## What is read -/

theorem getblock_direct (hi : i < 12) : fs.inodegetblock inode i = inode.blocks i := if_pos hi

theorem getblock_single (h : fs.Mounted) (hi : 12 ≤ i) (hlt : i < 12 + fs.blksize / 4) :
    fs.inodegetblock inode i = fs.word (inode.blocks 12) (i - 12) := by
  simp only [Ext2fs.inodegetblock, h.u32_width]
  rw [if_neg (by omega), if_neg (by omega)]

theorem div_width_lt_iff {k w : Nat} (hw : 0 < w) : k / w < w ↔ k < w ^ 2 := by
  rw [Nat.div_lt_iff_lt_mul hw, Nat.pow_two]

theorem getblock_double (h : fs.Mounted) (hi : 12 + fs.blksize / 4 ≤ i)
    (hlt : i < 12 + fs.blksize / 4 + (fs.blksize / 4) ^ 2) :
    fs.inodegetblock inode i =
      fs.word (fs.word (inode.blocks 13) ((i - 12 - fs.blksize / 4) / (fs.blksize / 4)))
        ((i - 12 - fs.blksize / 4) % (fs.blksize / 4)) := by
  have hw := h.width_ge
  have hsingle := (div_width_lt_iff (k := i - 12 - fs.blksize / 4) (w := fs.blksize / 4)
    (by omega)).mpr (by omega)
  simp only [Ext2fs.inodegetblock, h.u32_width]
  rw [if_neg (by omega), if_pos (by omega), if_neg (by omega)]

/-- In the triple range, the table of the data block is read from block `d`, which is an index. -/
theorem getblock_triple (h : fs.Mounted) (hi : 12 + fs.blksize / 4 + (fs.blksize / 4) ^ 2 ≤ i)
    (hi' : i < 2 ^ 32) :
    ∃ v, fs.inodegetblock inode i =
      fs.word (read fs.device ((i - 12 - fs.blksize / 4 - (fs.blksize / 4) ^ 2) / (fs.blksize / 4) *
        fs.blksize + u32 v) 4)
        ((i - 12 - fs.blksize / 4 - (fs.blksize / 4) ^ 2) % (fs.blksize / 4)) := by
  have hw := h.width_ge
  have hsingle : ¬ (i - 12 - fs.blksize / 4) / (fs.blksize / 4) < fs.blksize / 4 := by
    rw [div_width_lt_iff (by omega)]
    omega
  have hsquare : u32 (i - 12 - fs.blksize / 4 + (2 ^ 32 - u32 (fs.blksize / 4 * (fs.blksize / 4)))) =
      i - 12 - fs.blksize / 4 - (fs.blksize / 4) ^ 2 := by
    rw [← Nat.pow_two]
    unfold u32
    omega
  simp only [Ext2fs.inodegetblock, h.u32_width]
  rw [if_neg (by omega), if_pos (by omega), if_pos (Nat.not_lt.mp hsingle), hsquare]
  exact ⟨_, rfl⟩

/-! ## The map -/

theorem map_direct (hi : i < 12) : (fs.blockmap inode).get i = inode.blocks i := by
  have hloc : locate (fs.blksize / 4) i = (i, 0) := if_pos hi
  have hdepth : depth i = 0 := by
    unfold depth
    omega
  rw [BlockMap.get, show (fs.blockmap inode).width = fs.blksize / 4 from rfl, hloc, hdepth]
  rfl

/-- A table that is absent has no entries. -/
def Ext2fs.entry (fs : Ext2fs) (block k : Nat) : Nat := if block = 0 then 0 else fs.word block k

theorem map_single (hi : 12 ≤ i) (hlt : i < 12 + fs.blksize / 4) :
    (fs.blockmap inode).get i = fs.entry (inode.blocks 12) (i - 12) := by
  have hloc : locate (fs.blksize / 4) i = (12, i - 12) := by
    rw [locate, if_neg (by omega), if_pos hlt]
  rw [BlockMap.get, show (fs.blockmap inode).width = fs.blksize / 4 from rfl, hloc]
  change lookup _ _ 1 _ _ = _
  rw [lookup, lookup, Nat.pow_zero, Nat.div_one]
  rfl

theorem map_double (hi : 12 + fs.blksize / 4 ≤ i)
    (hlt : i < 12 + fs.blksize / 4 + (fs.blksize / 4) ^ 2) :
    (fs.blockmap inode).get i =
      fs.entry (fs.entry (inode.blocks 13) ((i - 12 - fs.blksize / 4) / (fs.blksize / 4)))
        ((i - 12 - fs.blksize / 4) % (fs.blksize / 4)) := by
  have hloc : locate (fs.blksize / 4) i = (13, i - 12 - fs.blksize / 4) := by
    rw [locate, if_neg (by omega), if_neg (by omega), if_pos hlt]
  rw [BlockMap.get, show (fs.blockmap inode).width = fs.blksize / 4 from rfl, hloc]
  change lookup _ _ 2 (inode.blocks 13) _ = _
  by_cases hroot : inode.blocks 13 = 0
  · rw [hroot, lookup_zero]
    rfl
  · rw [lookup_succ hroot, lookup, lookup, Nat.pow_one, Nat.pow_zero, Nat.div_one,
      Ext2fs.entry, Ext2fs.entry, if_neg hroot]
    rfl

/-- Where a table on the way is absent, the words that are read instead of it are 0. -/
structure Ext2fs.HolesHarmless (fs : Ext2fs) (inode : Inode) (i : Nat) : Prop where
  single : 12 ≤ i → i < 12 + fs.blksize / 4 → inode.blocks 12 = 0 → fs.word 0 (i - 12) = 0
  double : 12 + fs.blksize / 4 ≤ i → inode.blocks 13 = 0 →
    fs.word (fs.word 0 ((i - 12 - fs.blksize / 4) / (fs.blksize / 4)))
      ((i - 12 - fs.blksize / 4) % (fs.blksize / 4)) = 0
  doubleEntry : 12 + fs.blksize / 4 ≤ i → inode.blocks 13 ≠ 0 →
    fs.word (inode.blocks 13) ((i - 12 - fs.blksize / 4) / (fs.blksize / 4)) = 0 →
    fs.word 0 ((i - 12 - fs.blksize / 4) % (fs.blksize / 4)) = 0

theorem getblock_eq_map_iff (h : fs.Mounted) (hi : i < 12 + fs.blksize / 4 + (fs.blksize / 4) ^ 2) :
    fs.inodegetblock inode i = (fs.blockmap inode).get i ↔ fs.HolesHarmless inode i := by
  rcases Nat.lt_or_ge i 12 with hdirect | hge
  · rw [getblock_direct hdirect, map_direct hdirect]
    exact iff_of_true rfl ⟨by omega, by omega, by omega⟩
  rcases Nat.lt_or_ge i (12 + fs.blksize / 4) with hsingle | hge'
  · rw [getblock_single h hge hsingle, map_single hge hsingle]
    by_cases hroot : inode.blocks 12 = 0
    · rw [hroot, Ext2fs.entry, if_pos rfl]
      exact ⟨fun h0 => ⟨fun _ _ _ => h0, by omega, by omega⟩, fun hh => hh.single hge hsingle hroot⟩
    · rw [Ext2fs.entry, if_neg hroot]
      exact iff_of_true rfl ⟨fun _ _ h0 => absurd h0 hroot, by omega, by omega⟩
  · rw [getblock_double h hge' hi, map_double hge' hi]
    by_cases hroot : inode.blocks 13 = 0
    · rw [hroot, Ext2fs.entry, Ext2fs.entry, if_pos rfl, if_pos rfl]
      exact ⟨fun h0 => ⟨by omega, fun _ _ => h0, fun _ hne => absurd hroot hne⟩,
        fun hh => hh.double hge' hroot⟩
    · have hroot' : fs.entry (inode.blocks 13) ((i - 12 - fs.blksize / 4) / (fs.blksize / 4)) =
          fs.word (inode.blocks 13) ((i - 12 - fs.blksize / 4) / (fs.blksize / 4)) := if_neg hroot
      rw [hroot']
      by_cases hentry :
          fs.word (inode.blocks 13) ((i - 12 - fs.blksize / 4) / (fs.blksize / 4)) = 0
      · rw [hentry, Ext2fs.entry, if_pos rfl]
        exact ⟨fun h0 => ⟨by omega, fun _ h0' => absurd h0' hroot, fun _ _ _ => h0⟩,
          fun hh => hh.doubleEntry hge' hroot hentry⟩
      · rw [Ext2fs.entry, if_neg hentry]
        exact iff_of_true rfl ⟨by omega, fun _ h0 => absurd h0 hroot,
          fun _ _ h0 => absurd h0 hentry⟩

theorem getblock_eq_of_mapped (h : fs.Mounted)
    (hi : i < 12 + fs.blksize / 4 + (fs.blksize / 4) ^ 2) (hne : (fs.blockmap inode).get i ≠ 0) :
    fs.inodegetblock inode i = (fs.blockmap inode).get i := by
  refine (getblock_eq_map_iff h hi).mpr ⟨fun hge hlt hroot => ?_, fun hge hroot => ?_,
    fun hge hroot hentry => ?_⟩
  · rw [map_single hge hlt, hroot] at hne
    exact absurd rfl hne
  · rw [map_double hge hi, hroot] at hne
    exact absurd rfl hne
  · rw [map_double hge hi, show fs.entry (inode.blocks 13) _ = _ from if_neg hroot, hentry] at hne
    exact absurd rfl hne

/-! ## The triple range -/

/-- A file with one block, at index `k` of the triple range. -/
structure TripleFile (fs : Ext2fs) (inode : Inode) (k : Nat) : Prop where
  mounted : fs.Mounted
  roots : ∀ slot < 15, inode.blocks slot = if slot = 14 then 2 ^ 30 else 0
  table₁ : ∀ i < fs.blksize / 4, fs.word (2 ^ 30) i =
    if i = k / (fs.blksize / 4) ^ 2 then 2 ^ 30 + 1 else 0
  table₂ : ∀ i < fs.blksize / 4, fs.word (2 ^ 30 + 1) i =
    if i = k % (fs.blksize / 4) ^ 2 / (fs.blksize / 4) then 2 ^ 30 + 2 else 0
  table₃ : ∀ i < fs.blksize / 4, fs.word (2 ^ 30 + 2) i =
    if i = k % (fs.blksize / 4) ^ 2 % (fs.blksize / 4) then 2 ^ 30 + 3 else 0
  /-- What lies in front of the file. -/
  zeros : ∀ x < 2 ^ 30 * fs.blksize, fs.device x = 0

namespace TripleFile

variable {k : Nat}

theorem indices (h : TripleFile fs inode k) (hk : k < (fs.blksize / 4) ^ 3) :
    k / (fs.blksize / 4) ^ 2 < fs.blksize / 4 ∧
      k % (fs.blksize / 4) ^ 2 / (fs.blksize / 4) < fs.blksize / 4 ∧
      k % (fs.blksize / 4) ^ 2 % (fs.blksize / 4) < fs.blksize / 4 := by
  have hpos : 0 < fs.blksize / 4 := by
    have := h.mounted.width_ge
    omega
  refine ⟨div_lt_width (d := 2) hk, ?_, Nat.mod_lt _ hpos⟩
  exact (div_width_lt_iff hpos).mpr (Nat.mod_lt _ (Nat.pow_pos hpos))

theorem all_eq (h : TripleFile fs inode k) (hk : k < (fs.blksize / 4) ^ 3) :
    (fs.blockmap inode).all = [2 ^ 30, 2 ^ 30 + 1, 2 ^ 30 + 2, 2 ^ 30 + 3] := by
  obtain ⟨h₁, h₂, h₃⟩ := h.indices hk
  have hroot : (fs.blockmap inode).all = blocks fs.word (fs.blksize / 4) 3 (inode.blocks 14) := by
    refine flatMap_range_single (x := 14) (by decide) fun slot hslot hne => ?_
    rw [show (fs.blockmap inode).roots slot = inode.blocks slot from rfl, h.roots slot hslot,
      if_neg hne, blocks_zero]
  rw [hroot, h.roots 14 (by decide), if_pos rfl, blocks_succ (by decide),
    flatMap_range_single h₁ fun i hi hne => by rw [h.table₁ i hi, if_neg hne, blocks_zero],
    h.table₁ _ h₁, if_pos rfl, blocks_succ (by decide),
    flatMap_range_single h₂ fun i hi hne => by rw [h.table₂ i hi, if_neg hne, blocks_zero],
    h.table₂ _ h₂, if_pos rfl, blocks_succ (by decide),
    flatMap_range_single h₃ fun i hi hne => by rw [h.table₃ i hi, if_neg hne, blocks_zero],
    h.table₃ _ h₃, if_pos rfl]
  rfl

theorem get_eq (h : TripleFile fs inode k) (hk : k < (fs.blksize / 4) ^ 3) :
    (fs.blockmap inode).get (12 + fs.blksize / 4 + (fs.blksize / 4) ^ 2 + k) = 2 ^ 30 + 3 := by
  obtain ⟨h₁, h₂, h₃⟩ := h.indices hk
  have hloc : locate (fs.blksize / 4) (12 + fs.blksize / 4 + (fs.blksize / 4) ^ 2 + k) = (14, k) := by
    rw [locate, if_neg (by omega), if_neg (by omega), if_neg (by omega)]
    congr 1
    omega
  rw [BlockMap.get, show (fs.blockmap inode).width = fs.blksize / 4 from rfl, hloc]
  change lookup fs.word (fs.blksize / 4) 3 (inode.blocks 14) k = _
  rw [h.roots 14 (by decide), if_pos rfl, lookup_succ (by decide), h.table₁ _ h₁, if_pos rfl,
    lookup_succ (by decide), Nat.pow_one, h.table₂ _ h₂, if_pos rfl, lookup_succ (by decide),
    Nat.pow_zero, Nat.div_one, h.table₃ _ h₃, if_pos rfl]
  rfl

theorem getblock_eq (h : TripleFile fs inode k)
    (hi : 12 + fs.blksize / 4 + (fs.blksize / 4) ^ 2 + k < 2 ^ 32) :
    fs.inodegetblock inode (12 + fs.blksize / 4 + (fs.blksize / 4) ^ 2 + k) = 0 := by
  obtain ⟨v, heq⟩ := @getblock_triple _ inode _ h.mounted (Nat.le_add_right _ k) hi
  rw [show 12 + fs.blksize / 4 + (fs.blksize / 4) ^ 2 + k - 12 - fs.blksize / 4 -
    (fs.blksize / 4) ^ 2 = k by omega] at heq
  have hw := h.mounted.width_ge
  have hbs := h.mounted.blksize_eq
  have hmod : k % (fs.blksize / 4) < fs.blksize / 4 := Nat.mod_lt _ (by omega)
  have hd : k / (fs.blksize / 4) < 2 ^ 24 := by
    refine Nat.div_lt_of_lt_mul ?_
    calc k < 2 ^ 32 := by omega
      _ = 256 * 2 ^ 24 := by decide
      _ ≤ fs.blksize / 4 * 2 ^ 24 := Nat.mul_le_mul_right _ hw
  have hbase : k / (fs.blksize / 4) * fs.blksize ≤ 2 ^ 24 * fs.blksize :=
    Nat.mul_le_mul_right _ (Nat.le_of_lt hd)
  have hv : u32 v < 2 ^ 32 := Nat.mod_lt _ (by decide)
  have hindirect : read fs.device (k / (fs.blksize / 4) * fs.blksize + u32 v) 4 = 0 := by
    refine read_zeros fun x _ hx => h.zeros x ?_
    omega
  rw [heq, hindirect]
  refine read_zeros fun x _ hx => h.zeros x ?_
  omega

end TripleFile

theorem exists_tripleFile {shift k : Nat} (hshift : shift ≤ 20) (hk : k < (256 * 2 ^ shift) ^ 3) :
    ∃ fs inode, TripleFile fs inode k ∧ fs.blksize = 1024 * 2 ^ shift := by
  obtain ⟨fs₀, hfs₀⟩ : ∃ fs : Ext2fs, fs =
      ⟨⟨write (fun _ => 0) 24 4 shift⟩, 1024 * 2 ^ shift, 512, fun _ => 0⟩ := ⟨_, rfl⟩
  have hmount : fs₀.Mounted := by
    have hsb : fs₀.sb.blksize = shift := by
      rw [hfs₀]
      exact (read_write _ 24 4 shift).trans (Nat.mod_eq_of_lt (by omega))
    exact ⟨by rw [hsb, hfs₀], by rw [hsb]; exact hshift⟩
  have hbs : fs₀.blksize = 1024 * 2 ^ shift := by rw [hfs₀]
  have hzero : ∀ x, fs₀.device x = 0 := fun x => by rw [hfs₀]
  have hwidth : fs₀.blksize / 4 = 256 * 2 ^ shift := by omega
  rw [← hwidth] at hk
  have hword : ∀ b i, fs₀.word b i = 0 := fun b i => read_zeros fun x _ _ => hzero x
  have hpos : 0 < fs₀.blksize / 4 := by
    have := hmount.width_ge
    omega
  have h₁ : k / (fs₀.blksize / 4) ^ 2 < fs₀.blksize / 4 := div_lt_width (d := 2) hk
  have h₂ : k % (fs₀.blksize / 4) ^ 2 / (fs₀.blksize / 4) < fs₀.blksize / 4 :=
    (div_width_lt_iff hpos).mpr (Nat.mod_lt _ (Nat.pow_pos hpos))
  have h₃ : k % (fs₀.blksize / 4) ^ 2 % (fs₀.blksize / 4) < fs₀.blksize / 4 := Nat.mod_lt _ hpos
  obtain ⟨fs, hfs⟩ : ∃ fs, fs = ((fs₀.setword (2 ^ 30) (k / (fs₀.blksize / 4) ^ 2) (2 ^ 30 + 1)).setword
      (2 ^ 30 + 1) (k % (fs₀.blksize / 4) ^ 2 / (fs₀.blksize / 4)) (2 ^ 30 + 2)).setword
      (2 ^ 30 + 2) (k % (fs₀.blksize / 4) ^ 2 % (fs₀.blksize / 4)) (2 ^ 30 + 3) := ⟨_, rfl⟩
  have hbs' : fs.blksize = fs₀.blksize := by rw [hfs]; rfl
  have hwords : ∀ b i, i < fs₀.blksize / 4 → fs.word b i =
      if b = 2 ^ 30 + 2 ∧ i = k % (fs₀.blksize / 4) ^ 2 % (fs₀.blksize / 4) then 2 ^ 30 + 3
      else if b = 2 ^ 30 + 1 ∧ i = k % (fs₀.blksize / 4) ^ 2 / (fs₀.blksize / 4) then 2 ^ 30 + 2
      else if b = 2 ^ 30 ∧ i = k / (fs₀.blksize / 4) ^ 2 then 2 ^ 30 + 1 else 0 := by
    intro b i hi
    rw [hfs, word_setword_ite hmount.setword.setword h₃ hi, word_setword_ite hmount.setword h₂ hi,
      word_setword_ite hmount h₁ hi, hword]
    rfl
  refine ⟨fs, Inode.setBlocks ⟨fun _ => 0⟩ 14 (2 ^ 30), ⟨?_, ?_, ?_, ?_, ?_, ?_⟩, by rw [hbs', hbs]⟩
  · rw [hfs]
    exact hmount.setword.setword.setword
  · intro slot hslot
    split_ifs with heq
    · rw [heq, blocks_setBlocks]
      rfl
    · rw [blocks_setBlocks_of_ne (Ne.symm heq)]
      exact read_zeros fun _ _ _ => rfl
  · intro i hi
    rw [hbs'] at hi ⊢
    rw [hwords _ i hi]
    simp
  · intro i hi
    rw [hbs'] at hi ⊢
    rw [hwords _ i hi]
    simp
  · intro i hi
    rw [hbs'] at hi ⊢
    rw [hwords _ i hi]
    simp
  · intro x hx
    rw [hbs'] at hx
    have hle : ∀ b, 2 ^ 30 ≤ b → x < b * fs₀.blksize := fun b hb =>
      Nat.lt_of_lt_of_le hx (Nat.mul_le_mul_right _ hb)
    rw [hfs, setword_device_of_lt, setword_device_of_lt, setword_device_of_lt, hzero]
    · exact hle _ (by decide)
    · exact hle _ (by decide)
    · exact hle _ (by decide)

/-- A device with blocks of 1024 bytes, each byte being 1. -/
def sampleImage : Ext2fs := ⟨⟨fun _ => 0⟩, 1024, 512, fun _ => 1⟩

theorem sampleImage_mounted : sampleImage.Mounted := ⟨by decide, by decide⟩

/-- A file without blocks has a twelfth one, and a file with one block has another one. -/
theorem inodegetblock_wrong :
    (sampleImage.blockmap ⟨fun _ => 0⟩).get 12 = 0 ∧
    sampleImage.inodegetblock ⟨fun _ => 0⟩ 12 = 0x01010101 ∧
    ∃ fs inode, TripleFile fs inode 0 ∧
      fs.inodegetblock inode (12 + fs.blksize / 4 + (fs.blksize / 4) ^ 2 + 0) ≠
        (fs.blockmap inode).get (12 + fs.blksize / 4 + (fs.blksize / 4) ^ 2 + 0) := by
  refine ⟨by decide, by decide, ?_⟩
  obtain ⟨fs, inode, h, hbs⟩ := @exists_tripleFile 0 0 (by decide) (by decide)
  refine ⟨fs, inode, h, ?_⟩
  rw [h.get_eq (by rw [hbs]; decide), h.getblock_eq (by rw [hbs]; decide)]
  decide

/-- **Where `ext2fs_inodegetblock` returns the block number of the map.** Below the triple range,
where the words that it reads instead of those of absent tables are 0. At no block of the triple
range for every well-formed file, all tables on the way being there. -/
theorem inodegetblock_reference_iff (h : fs.Mounted) (inode : Inode) (i : Nat) :
    (i < 12 + fs.blksize / 4 + (fs.blksize / 4) ^ 2 →
      (fs.inodegetblock inode i = (fs.blockmap inode).get i ↔ fs.HolesHarmless inode i)) ∧
    (12 + fs.blksize / 4 + (fs.blksize / 4) ^ 2 ≤ i → i < maxblocks (fs.blksize / 4) → i < 2 ^ 32 →
      ¬ ∀ (fs' : Ext2fs) (inode : Inode), fs'.Mounted → fs'.blksize = fs.blksize →
        (fs'.blockmap inode).all.Nodup → (fs'.blockmap inode).get i ≠ 0 →
        fs'.inodegetblock inode i = (fs'.blockmap inode).get i) := by
  refine ⟨fun hi => getblock_eq_map_iff h hi, fun hle hlt hi hall => ?_⟩
  obtain ⟨k, rfl⟩ := Nat.exists_eq_add_of_le hle
  have hwidth : fs.blksize / 4 = 256 * 2 ^ fs.sb.blksize := by
    rw [h.blksize]
    omega
  have hk : k < (256 * 2 ^ fs.sb.blksize) ^ 3 := by
    rw [← hwidth]
    unfold maxblocks at hlt
    omega
  obtain ⟨fs', inode, h', hbs⟩ := exists_tripleFile h.shift hk
  have hsame : fs'.blksize = fs.blksize := by
    rw [hbs, h.blksize]
  have hwidth' : 256 * 2 ^ fs.sb.blksize = fs'.blksize / 4 := by
    rw [hsame, hwidth]
  rw [hwidth, hwidth'] at hi hall
  rw [hwidth'] at hk
  have hget := h'.get_eq hk
  have heq := hall fs' inode h'.mounted hsame (by rw [h'.all_eq hk]; decide) (by rw [hget]; decide)
  rw [h'.getblock_eq hi, hget] at heq
  exact absurd heq (by decide)

theorem inodegetblock_reference_iff_sample :
    sampleImage.inodegetblock (Inode.setBlocks ⟨fun _ => 0⟩ 13 7) 300 =
      (sampleImage.blockmap (Inode.setBlocks ⟨fun _ => 0⟩ 13 7)).get 300 :=
  ((inodegetblock_reference_iff sampleImage_mounted _ 300).1 (by decide)).mpr
    ⟨by decide, by decide, by decide⟩

end Lyre.Ext2

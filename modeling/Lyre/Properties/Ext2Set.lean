import Lyre.Properties.Ext2Blocks

/-!
# Setting a block of a file

`ext2fs_inodesetblock` writes one word if the tables on the way are there, and the other blocks of the
file stay. A table that it allocates is linked as it is: what the new block holds from before becomes the
numbers of the file blocks beside the one that is set. So the code is right whatever free blocks hold
exactly if it needs none of them (`inodesetblock_iff`).
-/

namespace Lyre.Ext2

open Infra Infra.Bytes Infra.Tables Ext2fs

variable {G : Geometry} {fs fs' fs₁ fs₂ fs₃ : Ext2fs} {inode inode₁ inode₃ : Inode}
  {b d i j k n n₂ s t o w inodeidx : Nat}

/-! ## The double range -/

/-- The entry of the first table, in the double range. -/
def outerIdx (w i : Nat) : Nat := (i - 12 - w) / w

/-- The entry of the second one. -/
def innerIdx (w i : Nat) : Nat := (i - 12 - w) % w

theorem double_inj (hi : 12 + w ≤ i) (hj : 12 + w ≤ j) (hout : outerIdx w i = outerIdx w j)
    (hin : innerIdx w i = innerIdx w j) : i = j := by
  have hi' := Nat.div_add_mod (i - 12 - w) w
  have hj' := Nat.div_add_mod (j - 12 - w) w
  rw [outerIdx, outerIdx] at hout
  rw [innerIdx, innerIdx] at hin
  rw [hout, hin] at hi'
  omega

theorem double_surj (hs : s < w) (ho : o < w) :
    outerIdx w (12 + w + (s * w + o)) = s ∧ innerIdx w (12 + w + (s * w + o)) = o ∧
      12 + w + (s * w + o) < 12 + w + w ^ 2 := by
  have hoff : 12 + w + (s * w + o) - 12 - w = s * w + o := by omega
  have hle : (s + 1) * w ≤ w * w := Nat.mul_le_mul_right w hs
  rw [outerIdx, innerIdx, hoff, Nat.mul_comm s w, Nat.mul_add_div (by omega), Nat.mul_add_mod,
    Nat.div_eq_of_lt ho, Nat.mod_eq_of_lt ho, Nat.pow_two]
  rw [Nat.add_mul, Nat.mul_comm s w] at hle
  exact ⟨Nat.add_zero s, rfl, by omega⟩

theorem outerIdx_lt (hi : 12 + w ≤ i) (hlt : i < 12 + w + w ^ 2) : outerIdx w i < w := by
  have hw : 0 < w := Nat.pos_of_ne_zero fun h0 => by
    subst h0
    omega
  exact (div_width_lt_iff hw).mpr (by omega)

theorem innerIdx_lt (hi : 12 + w ≤ i) (hlt : i < 12 + w + w ^ 2) : innerIdx w i < w := by
  have hw : 0 < w := Nat.pos_of_ne_zero fun h0 => by
    subst h0
    omega
  exact Nat.mod_lt _ hw

/-! ## What is set -/

/-- Block `d` is read back as file block `i`, and the others are what they have been. -/
structure SetsBlock (fs : Ext2fs) (inode : Inode) (inodeidx i d : Nat) : Prop where
  there : (fs.inodesetblock inode inodeidx i d).1.inodegetblock
    (fs.inodesetblock inode inodeidx i d).2 i = d
  others : ∀ j < 12 + fs.blksize / 4 + (fs.blksize / 4) ^ 2, j ≠ i →
    (fs.inodesetblock inode inodeidx i d).1.inodegetblock
      (fs.inodesetblock inode inodeidx i d).2 j = fs.inodegetblock inode j

/-- How many tables on the way to a file block are absent. -/
def Ext2fs.absent (fs : Ext2fs) (inode : Inode) (i : Nat) : Nat :=
  if i < 12 then 0
  else if i < 12 + fs.blksize / 4 then if inode.blocks 12 = 0 then 1 else 0
  else if inode.blocks 13 = 0 then 2
  else if fs.word (inode.blocks 13) (outerIdx (fs.blksize / 4) i) = 0 then 1 else 0

/-- No table is absent. If there is no double-indirect block, and block 0 is read in place of it, the
word that is written is not reached that way. -/
def Ext2fs.SetsInPlace (fs : Ext2fs) (inode : Inode) (i d : Nat) : Prop :=
  fs.absent inode i = 0 ∧ (12 ≤ i → i < 12 + fs.blksize / 4 → inode.blocks 13 = 0 →
    (∃ s < fs.blksize / 4, fs.word 0 s = inode.blocks 12) → fs.word (inode.blocks 12) (i - 12) = d)

theorem set_direct (hi : i < 12) :
    fs.inodesetblock inode inodeidx i d = (fs, inode.setBlocks i d) := if_pos hi

theorem set_single (h : fs.Mounted) (hi : 12 ≤ i) (hlt : i < 12 + fs.blksize / 4)
    (hroot : inode.blocks 12 ≠ 0) :
    fs.inodesetblock inode inodeidx i d = (fs.setword (inode.blocks 12) (i - 12) d, inode) := by
  simp only [inodesetblock, h.u32_width]
  rw [if_neg (by omega), if_neg (by omega), if_neg hroot]

theorem set_single_alloc (h : fs.Mounted) (hi : 12 ≤ i) (hlt : i < 12 + fs.blksize / 4)
    (hroot : inode.blocks 12 = 0) (halloc : fs.allocblock inode inodeidx = (fs₁, inode₁, n)) :
    fs.inodesetblock inode inodeidx i d =
      ((fs₁.inodewriteentry (inode₁.setBlocks 12 n) inodeidx).setword (u32 n) (i - 12) d,
        inode₁.setBlocks 12 n) := by
  simp only [inodesetblock, h.u32_width]
  rw [if_neg (by omega), if_neg (by omega), if_pos hroot, halloc]
  dsimp only
  rw [blocks_setBlocks]

theorem set_double_range (hi : 12 + fs.blksize / 4 ≤ i)
    (hlt : i < 12 + fs.blksize / 4 + (fs.blksize / 4) ^ 2) :
    ¬ i < 12 ∧ fs.blksize / 4 ≤ i - 12 ∧
      ¬ fs.blksize / 4 ≤ (i - 12 - fs.blksize / 4) / (fs.blksize / 4) := by
  have houter := outerIdx_lt hi hlt
  exact ⟨by omega, by omega, Nat.not_le.mpr houter⟩

theorem set_double (h : fs.Mounted) (hi : 12 + fs.blksize / 4 ≤ i)
    (hlt : i < 12 + fs.blksize / 4 + (fs.blksize / 4) ^ 2) (hroot : inode.blocks 13 ≠ 0)
    (hentry : fs.word (inode.blocks 13) (outerIdx (fs.blksize / 4) i) ≠ 0) :
    fs.inodesetblock inode inodeidx i d =
      (fs.setword (fs.word (inode.blocks 13) (outerIdx (fs.blksize / 4) i))
        (innerIdx (fs.blksize / 4) i) d, inode) := by
  obtain ⟨h₁, h₂, h₃⟩ := set_double_range hi hlt
  unfold outerIdx at hentry ⊢
  simp only [inodesetblock, h.u32_width]
  rw [if_neg h₁, if_pos h₂, if_neg h₃, if_neg hroot, if_neg hentry]
  rfl

theorem set_double_entry (h : fs.Mounted) (hi : 12 + fs.blksize / 4 ≤ i)
    (hlt : i < 12 + fs.blksize / 4 + (fs.blksize / 4) ^ 2) (hroot : inode.blocks 13 ≠ 0)
    (hentry : fs.word (inode.blocks 13) (outerIdx (fs.blksize / 4) i) = 0)
    (halloc : fs.allocblock inode inodeidx = (fs₁, inode₁, n)) :
    fs.inodesetblock inode inodeidx i d =
      ((fs₁.setword (inode₁.blocks 13) (outerIdx (fs.blksize / 4) i) n).setword (u32 n)
        (innerIdx (fs.blksize / 4) i) d, inode₁) := by
  obtain ⟨h₁, h₂, h₃⟩ := set_double_range hi hlt
  unfold outerIdx at hentry ⊢
  simp only [inodesetblock, h.u32_width]
  rw [if_neg h₁, if_pos h₂, if_neg h₃, if_neg hroot, if_pos hentry, halloc]
  rfl

theorem set_double_root (h : fs.Mounted) (hi : 12 + fs.blksize / 4 ≤ i)
    (hlt : i < 12 + fs.blksize / 4 + (fs.blksize / 4) ^ 2) (hroot : inode.blocks 13 = 0)
    (halloc : fs.allocblock inode inodeidx = (fs₁, inode₁, n))
    (hentry : (fs₁.inodewriteentry (inode₁.setBlocks 13 n) inodeidx).word (u32 n)
      (outerIdx (fs.blksize / 4) i) = 0)
    (halloc' : (fs₁.inodewriteentry (inode₁.setBlocks 13 n) inodeidx).allocblock
      (inode₁.setBlocks 13 n) inodeidx = (fs₃, inode₃, n₂)) :
    fs.inodesetblock inode inodeidx i d =
      ((fs₃.setword (inode₃.blocks 13) (outerIdx (fs.blksize / 4) i) n₂).setword (u32 n₂)
        (innerIdx (fs.blksize / 4) i) d, inode₃) := by
  obtain ⟨h₁, h₂, h₃⟩ := set_double_range hi hlt
  unfold outerIdx at hentry ⊢
  simp only [inodesetblock, h.u32_width]
  rw [if_neg h₁, if_pos h₂, if_neg h₃, if_pos hroot, halloc, blocks_setBlocks, if_pos hentry, halloc']
  rfl

/-! ## Tables that are there -/

theorem single_mem (hroot : inode.blocks 12 ≠ 0) :
    inode.blocks 12 ∈ blocks fs.word (fs.blksize / 4) (depth 12) (inode.blocks 12) := root_mem hroot

theorem double_entry_mem (hroot : inode.blocks 13 ≠ 0) (hs : s < fs.blksize / 4)
    (hentry : fs.word (inode.blocks 13) s ≠ 0) :
    fs.word (inode.blocks 13) s ∈ blocks fs.word (fs.blksize / 4) (depth 13) (inode.blocks 13) :=
  mem_blocks_entry hroot hs (root_mem hentry)

theorem single_ne_double (hnodup : (fs.blockmap inode).all.Nodup) (hroot : inode.blocks 12 ≠ 0)
    (h : t ∈ blocks fs.word (fs.blksize / 4) (depth 13) (inode.blocks 13)) : t ≠ inode.blocks 12 := by
  rintro rfl
  exact absurd (BlockMap.slot_inj hnodup (show 12 < 15 by decide) (show 13 < 15 by decide)
    (single_mem hroot) h) (by decide)

theorem double_entry_ne_root (hnodup : (fs.blockmap inode).all.Nodup) (hroot : inode.blocks 13 ≠ 0)
    (hs : s < fs.blksize / 4) : fs.word (inode.blocks 13) s ≠ inode.blocks 13 := by
  intro heq
  refine root_notMem_entry hroot (BlockMap.slot_nodup hnodup (show 13 < 15 by decide)) hs ?_
  change inode.blocks 13 ∈ blocks fs.word (fs.blksize / 4) 1 (fs.word (inode.blocks 13) s)
  rw [heq]
  exact root_mem hroot

theorem double_entry_inj (hnodup : (fs.blockmap inode).all.Nodup) (hroot : inode.blocks 13 ≠ 0)
    (hs : s < fs.blksize / 4) (ht : t < fs.blksize / 4) (hentry : fs.word (inode.blocks 13) s ≠ 0)
    (heq : fs.word (inode.blocks 13) t = fs.word (inode.blocks 13) s) : t = s := by
  have hmem : fs.word (inode.blocks 13) s ∈
      blocks fs.word (fs.blksize / 4) 1 (fs.word (inode.blocks 13) s) := root_mem hentry
  refine entry_inj hroot (BlockMap.slot_nodup hnodup (show 13 < 15 by decide)) ht hs ?_ hmem
  change _ ∈ blocks fs.word (fs.blksize / 4) 1 (fs.word (inode.blocks 13) t)
  rwa [heq]

/-- A word of a table is written: the lookups that do not end at that word. -/
theorem getblock_setword (h : fs.Mounted) (hj : j < 12 + fs.blksize / 4 + (fs.blksize / 4) ^ 2)
    (hk : k < fs.blksize / 4)
    (hsingle : 12 ≤ j → j < 12 + fs.blksize / 4 → inode.blocks 12 ≠ t ∨ j - 12 ≠ k)
    (hroot : inode.blocks 13 ≠ t)
    (hdouble : 12 + fs.blksize / 4 ≤ j →
      (fs.word (inode.blocks 13) (outerIdx (fs.blksize / 4) j) = t ∧ innerIdx (fs.blksize / 4) j = k) →
      fs.word t k = u32 d) :
    (fs.setword t k d).inodegetblock inode j = fs.inodegetblock inode j := by
  have h' : (fs.setword t k d).Mounted := h.setword
  rcases Nat.lt_or_ge j 12 with hdirect | hge
  · rw [getblock_direct hdirect, getblock_direct hdirect]
  rcases Nat.lt_or_ge j (12 + fs.blksize / 4) with hlt | hge'
  · rw [getblock_single h' hge hlt, getblock_single h hge hlt]
    refine word_setword_of_ne h hk (by omega) ?_
    rcases hsingle hge hlt with hne | hne
    · exact .inl (Ne.symm hne)
    · exact .inr (Ne.symm hne)
  · rw [getblock_double h' hge' hj, getblock_double h hge' hj]
    change (fs.setword t k d).word ((fs.setword t k d).word _ (outerIdx (fs.blksize / 4) j))
      (innerIdx (fs.blksize / 4) j) =
      fs.word (fs.word _ (outerIdx (fs.blksize / 4) j)) (innerIdx (fs.blksize / 4) j)
    rw [word_setword_of_ne h hk (outerIdx_lt hge' hj) (.inl (Ne.symm hroot)),
      word_setword_ite h hk (innerIdx_lt hge' hj)]
    split_ifs with heq
    · rw [heq.1, heq.2]
      exact (hdouble hge' heq).symm
    · rfl

theorem sets_inPlace (h : fs.Mounted) (hnodup : (fs.blockmap inode).all.Nodup)
    (hi : i < 12 + fs.blksize / 4 + (fs.blksize / 4) ^ 2) (hd : d < 2 ^ 32)
    (hplace : fs.SetsInPlace inode i d) : SetsBlock fs inode inodeidx i d := by
  obtain ⟨habsent, hstray⟩ := hplace
  have hu : u32 d = d := Nat.mod_eq_of_lt hd
  unfold Ext2fs.absent at habsent
  rcases Nat.lt_or_ge i 12 with hdirect | hge
  · -- a word of the inode
    refine ⟨?_, fun j hj hne => ?_⟩
    · rw [set_direct hdirect, getblock_direct hdirect, blocks_setBlocks, hu]
    · rw [set_direct hdirect]
      have hkept : ∀ k, k ≠ i → (inode.setBlocks i d).blocks k = inode.blocks k :=
        fun k hk => blocks_setBlocks_of_ne (Ne.symm hk)
      rcases Nat.lt_or_ge j 12 with hjd | hjge
      · rw [getblock_direct hjd, getblock_direct hjd, hkept j hne]
      rcases Nat.lt_or_ge j (12 + fs.blksize / 4) with hjs | hjge'
      · rw [getblock_single h hjge hjs, getblock_single h hjge hjs, hkept 12 (by omega)]
      · rw [getblock_double h hjge' hj, getblock_double h hjge' hj, hkept 13 (by omega)]
  rw [if_neg (by omega)] at habsent
  rcases Nat.lt_or_ge i (12 + fs.blksize / 4) with hsingle | hge'
  · -- a word of the single-indirect block
    rw [if_pos hsingle] at habsent
    have hroot : inode.blocks 12 ≠ 0 := fun h0 => by simp [h0] at habsent
    refine ⟨?_, fun j hj hne => ?_⟩
    · rw [set_single h hge hsingle hroot]
      have h' : (fs.setword (inode.blocks 12) (i - 12) d).Mounted := h.setword
      rw [getblock_single h' hge hsingle, word_setword, hu]
    · rw [set_single h hge hsingle hroot]
      refine getblock_setword h hj (by omega) (fun _ _ => .inr (by omega)) ?_ fun hjge heq => ?_
      · by_cases hroot' : inode.blocks 13 = 0
        · rw [hroot']
          exact Ne.symm hroot
        · exact single_ne_double hnodup hroot (root_mem hroot')
      · have hs := outerIdx_lt hjge hj
        by_cases hroot' : inode.blocks 13 = 0
        · rw [hroot'] at heq
          rw [hstray hge hsingle hroot' ⟨_, hs, heq.1⟩, hu]
        · have hentry : fs.word (inode.blocks 13) (outerIdx (fs.blksize / 4) j) ≠ 0 := by
            rw [heq.1]
            exact hroot
          exact absurd heq.1 (single_ne_double hnodup hroot (double_entry_mem hroot' hs hentry))
  · -- a word of a table below the double-indirect block
    rw [if_neg (by omega)] at habsent
    have hroot : inode.blocks 13 ≠ 0 := fun h0 => by simp [h0] at habsent
    rw [if_neg hroot] at habsent
    have hentry : fs.word (inode.blocks 13) (outerIdx (fs.blksize / 4) i) ≠ 0 := fun h0 => by
      simp [h0] at habsent
    have hs := outerIdx_lt hge' hi
    have hin := innerIdx_lt hge' hi
    have hne_root := double_entry_ne_root hnodup hroot hs
    refine ⟨?_, fun j hj hne => ?_⟩
    · rw [set_double h hge' hi hroot hentry]
      have h' : (fs.setword (fs.word (inode.blocks 13) (outerIdx (fs.blksize / 4) i))
        (innerIdx (fs.blksize / 4) i) d).Mounted := h.setword
      refine (getblock_double h' hge' hi).trans ?_
      change (fs.setword _ _ d).word ((fs.setword _ _ d).word _ (outerIdx (fs.blksize / 4) i))
        (innerIdx (fs.blksize / 4) i) = d
      rw [word_setword_of_ne h hin hs (.inl hne_root), word_setword, hu]
    · rw [set_double h hge' hi hroot hentry]
      refine getblock_setword h hj hin (fun _ _ => ?_) (Ne.symm hne_root) fun hjge heq => ?_
      · by_cases hsingle : inode.blocks 12 = 0
        · rw [hsingle]
          exact .inl (Ne.symm hentry)
        · exact .inl (Ne.symm (single_ne_double hnodup hsingle (double_entry_mem hroot hs hentry)))
      · have hout := double_entry_inj hnodup hroot hs (outerIdx_lt hjge hj) hentry heq.1
        exact absurd (double_inj hjge hge' hout heq.2) hne

/-! ## Tables that are allocated -/

/-- A file whose tables are in use and apart from the metadata. -/
structure FileOf (G : Geometry) (fs : Ext2fs) (inode : Inode) : Prop where
  stocked : Stocked G fs
  nodup : (fs.blockmap inode).all.Nodup
  used : ∀ t, (fs.blockmap inode).IsTable t → G.DataBlock t ∧ ¬ FreeBlock G fs t

/-- A mounted image whose tables have `w` words. -/
structure Sized (w : Nat) (fs : Ext2fs) : Prop where
  mounted : fs.Mounted
  width : fs.blksize / 4 = w

theorem Fits.sized (h : Fits G fs) : Sized (G.blksize / 4) fs := ⟨h.mounted, by rw [h.blksize]⟩

namespace Sized

theorem setword (h : Sized w fs) : Sized w (fs.setword t k d) := ⟨h.mounted.setword, h.width⟩

theorem word_of_ne (h : Sized w fs) (hk : k < w) (ho : o < w) (hne : t ≠ b ∨ k ≠ o) :
    (fs.setword t k d).word b o = fs.word b o :=
  word_setword_of_ne h.mounted (by rwa [h.width]) (by rwa [h.width]) hne

theorem getblock_single (h : Sized w fs) (hk : k < w) :
    fs.inodegetblock inode (12 + k) = fs.word (inode.blocks 12) k := by
  rw [Ext2.getblock_single h.mounted (Nat.le_add_right 12 k) (by rw [h.width]; omega),
    Nat.add_sub_cancel_left]

theorem getblock_double (h : Sized w fs) (hs : s < w) (ho : o < w) :
    fs.inodegetblock inode (12 + w + (s * w + o)) = fs.word (fs.word (inode.blocks 13) s) o := by
  obtain ⟨hout, hin, hlt⟩ := double_surj hs ho
  have hget := @Ext2.getblock_double _ inode _ h.mounted
    (show 12 + fs.blksize / 4 ≤ 12 + w + (s * w + o) by rw [h.width]; omega) (by rwa [h.width])
  rw [h.width] at hget
  rw [hget, ← outerIdx, ← innerIdx, hout, hin]

end Sized

theorem Takes.word (h : Takes G fs n fs') (hs : Stocked G fs) (ht : G.DataBlock t)
    (hk : k < G.blksize / 4) : fs'.word t k = fs.word t k :=
  word_congr hs.fits h.stocked.fits hk fun x hx => h.outside x (ht x hx)

theorem SameCounters.word (h : SameCounters G fs fs') (hs : Stocked G fs) (ht : G.DataBlock t)
    (hk : k < G.blksize / 4) : fs'.word t k = fs.word t k :=
  word_congr hs.fits h.fits hk fun x hx => h.outside x (ht x hx)

@[simp] theorem blocks_charged (fs : Ext2fs) (inode : Inode) (k : Nat) :
    (fs.charged inode).blocks k = inode.blocks k :=
  read_sameOff (write_sameOff _ _ _ _) (by unfold Apart; omega)

theorem FileOf.zero_used (hG : G.Sound) (h : FileOf G fs inode) : ¬ FreeBlock G fs 0 :=
  fun hfree => hfree.ne_zero hG h.stocked.exact rfl

theorem FileOf.root_used (h : FileOf G fs inode) (hroot : inode.blocks 13 ≠ 0) :
    G.DataBlock (inode.blocks 13) ∧ ¬ FreeBlock G fs (inode.blocks 13) := by
  refine h.used _ ⟨13, by decide, ?_⟩
  change inode.blocks 13 ∈ tables fs.word (fs.blksize / 4) 2 (inode.blocks 13)
  rw [tables_succ hroot]
  exact List.mem_cons_self

theorem groups_pos (hidx : G.IsInode inodeidx) : 0 < G.groups := by
  refine Nat.pos_of_ne_zero fun h0 => ?_
  have hle := hidx.2
  rw [h0, Nat.zero_mul] at hle
  exact Nat.not_lt.mpr hle hidx.1

/-- A single-indirect block is allocated: the other entries are what the block has held. -/
theorem single_alloc_get (hG : G.Sound) (h : Stocked G fs) (hidx : G.IsInode inodeidx)
    (hpos : 0 < fs.sb.unallocb) (hi : 12 ≤ i) (hlt : i < 12 + G.blksize / 4)
    (hroot : inode.blocks 12 = 0) :
    ∃ n, FreeBlock G fs n ∧ ∀ k < G.blksize / 4, k ≠ i - 12 →
      (fs.inodesetblock inode inodeidx i d).1.inodegetblock
        (fs.inodesetblock inode inodeidx i d).2 (12 + k) = fs.word n k := by
  obtain ⟨n, fs₁, halloc, htakes⟩ := h.alloc hG hidx hpos inode
  obtain ⟨hdata, hn⟩ := h.free n htakes.free
  have hu : u32 n = n := Nat.mod_eq_of_lt hn
  have hinode := htakes.stocked.writeinode hG hidx ((fs.charged inode).setBlocks 12 n)
  have hsized := hinode.fits.sized
  refine ⟨n, htakes.free, fun k hk hne => ?_⟩
  rw [set_single_alloc h.fits.mounted hi (by rwa [h.fits.sized.width]) hroot halloc, hu,
    hsized.setword.getblock_single hk, blocks_setBlocks, hu,
    hsized.word_of_ne (by omega) hk (.inr (Ne.symm hne)),
    hinode.word htakes.stocked hdata hk, htakes.word h hdata hk]

theorem double_alloc_get (hG : G.Sound) (h : Stocked G fs) (hidx : G.IsInode inodeidx)
    (hpos : 0 < fs.sb.unallocb) (hi : 12 + G.blksize / 4 ≤ i)
    (hlt : i < 12 + G.blksize / 4 + (G.blksize / 4) ^ 2) (hroot : inode.blocks 13 ≠ 0)
    (hused : ¬ FreeBlock G fs (inode.blocks 13))
    (hentry : fs.word (inode.blocks 13) (outerIdx (G.blksize / 4) i) = 0) :
    ∃ n, FreeBlock G fs n ∧ ∀ o < G.blksize / 4, o ≠ innerIdx (G.blksize / 4) i →
      (fs.inodesetblock inode inodeidx i d).1.inodegetblock (fs.inodesetblock inode inodeidx i d).2
        (12 + G.blksize / 4 + (outerIdx (G.blksize / 4) i * (G.blksize / 4) + o)) = fs.word n o := by
  obtain ⟨n, fs₁, halloc, htakes⟩ := h.alloc hG hidx hpos inode
  obtain ⟨hdata, hn⟩ := h.free n htakes.free
  have hu : u32 n = n := Nat.mod_eq_of_lt hn
  have hsized := htakes.stocked.fits.sized
  have hwidth := h.fits.sized.width
  have hne_root : n ≠ inode.blocks 13 := by
    rintro rfl
    exact hused htakes.free
  have hout := outerIdx_lt hi hlt
  have hin := innerIdx_lt hi hlt
  refine ⟨n, htakes.free, fun o ho hne => ?_⟩
  rw [← hwidth] at hi hlt hentry
  rw [set_double_entry h.fits.mounted hi hlt hroot hentry halloc, hwidth, hu, blocks_charged,
    hsized.setword.setword.getblock_double hout ho, blocks_charged,
    hsized.setword.word_of_ne hin hout (.inl hne_root), word_setword, hu,
    hsized.setword.word_of_ne hin ho (.inr (Ne.symm hne)),
    hsized.word_of_ne hout ho (.inl (Ne.symm hne_root)), htakes.word h hdata ho]

/-- Both tables of the double range are allocated. The first one is empty at the entry that is needed;
at another one it leads where it led before. -/
theorem double_root_get (hG : G.Sound) (h : Stocked G fs) (hidx : G.IsInode inodeidx)
    (htwo : 2 ≤ fs.sb.unallocb) (hi : 12 + G.blksize / 4 ≤ i)
    (hlt : i < 12 + G.blksize / 4 + (G.blksize / 4) ^ 2) (hroot : inode.blocks 13 = 0)
    (hentry : ∀ n, FreeBlock G fs n → fs.word n (outerIdx (G.blksize / 4) i) = 0) :
    ∃ n, FreeBlock G fs n ∧ ∀ s < G.blksize / 4, s ≠ outerIdx (G.blksize / 4) i →
      ∀ o < G.blksize / 4, o ≠ outerIdx (G.blksize / 4) i → o ≠ innerIdx (G.blksize / 4) i →
      G.DataBlock (fs.word n s) →
      (fs.inodesetblock inode inodeidx i d).1.inodegetblock (fs.inodesetblock inode inodeidx i d).2
        (12 + G.blksize / 4 + (s * (G.blksize / 4) + o)) = fs.word (fs.word n s) o := by
  obtain ⟨n, fs₁, halloc, htakes⟩ := h.alloc hG hidx (by omega) inode
  obtain ⟨hdata, hn⟩ := h.free n htakes.free
  have hu : u32 n = n := Nat.mod_eq_of_lt hn
  have hinode := htakes.stocked.writeinode hG hidx ((fs.charged inode).setBlocks 13 n)
  have hstocked := hinode.stocked hG (groups_pos hidx) htakes.stocked
  have hpos : 0 < (fs₁.inodewriteentry ((fs.charged inode).setBlocks 13 n) inodeidx).sb.unallocb := by
    have htotal := htakes.total
    rw [hinode.sb]
    omega
  obtain ⟨n₂, fs₃, halloc₂, htakes₂⟩ := hstocked.alloc hG hidx hpos ((fs.charged inode).setBlocks 13 n)
  obtain ⟨hdata₂, hn₂⟩ := hstocked.free n₂ htakes₂.free
  have hne : n₂ ≠ n := (htakes.left n₂ ((freeBlock_congr hG hinode.bit).mp htakes₂.free)).2
  have hu₂ : u32 n₂ = n₂ := Nat.mod_eq_of_lt hn₂
  have hwidth := h.fits.sized.width
  have hsized := htakes₂.stocked.fits.sized
  have hout := outerIdx_lt hi hlt
  have hin := innerIdx_lt hi hlt
  -- what the allocations leave
  have hkept : ∀ {t k}, G.DataBlock t → k < G.blksize / 4 → fs₃.word t k = fs.word t k :=
    fun ht hk => by
      rw [htakes₂.word hstocked ht hk, hinode.word htakes.stocked ht hk, htakes.word h ht hk]
  have hzero : (fs₁.inodewriteentry ((fs.charged inode).setBlocks 13 n) inodeidx).word (u32 n)
      (outerIdx (fs.blksize / 4) i) = 0 := by
    rw [hu, hwidth, hinode.word htakes.stocked hdata hout, htakes.word h hdata hout]
    exact hentry n htakes.free
  refine ⟨n, htakes.free, fun s hs hsne o ho hone hone' hdata' => ?_⟩
  rw [← hwidth] at hi hlt
  rw [set_double_root h.fits.mounted hi hlt hroot halloc hzero halloc₂, hwidth, hu₂, blocks_charged,
    blocks_setBlocks, hu, hsized.setword.setword.getblock_double hs ho, blocks_charged,
    blocks_setBlocks, hu, hsized.setword.word_of_ne hin hs (.inl hne),
    hsized.word_of_ne hout hs (.inr (Ne.symm hsne)), hkept hdata hs,
    hsized.setword.word_of_ne hin ho (.inr (Ne.symm hone')),
    hsized.word_of_ne hout ho (.inr (Ne.symm hone)), hkept hdata' ho]

/-! ## Whatever the free blocks hold -/

/-- Another word than `c`. -/
def otherWord (c : Nat) : Nat := if c = 1 then 2 else 1

theorem u32_otherWord (c : Nat) : u32 (otherWord c) = otherWord c := by
  unfold otherWord u32
  split_ifs <;> decide

theorem otherWord_ne (c : Nat) : otherWord c ≠ c := by
  unfold otherWord
  split_ifs <;> omega

theorem exists_index (a b : Nat) : ∃ k, 2 ≤ k ∧ k < 5 ∧ k ≠ a ∧ k ≠ b := by
  by_cases h₂ : 2 ≠ a ∧ 2 ≠ b
  · exact ⟨2, by decide, by decide, h₂⟩
  by_cases h₃ : 3 ≠ a ∧ 3 ≠ b
  · exact ⟨3, by decide, by decide, h₃⟩
  · exact ⟨4, by decide, by decide, by omega, by omega⟩

theorem Stocked.width_ge (h : Stocked G fs) : 256 ≤ G.blksize / 4 := by
  have hge := h.fits.mounted.width_ge
  rwa [h.fits.sized.width] at hge

/-- The free blocks hold something else than what is read in place of the absent table. -/
theorem single_alloc_wrong (hG : G.Sound) (h : FileOf G fs inode) (hidx : G.IsInode inodeidx)
    (hpos : 0 < fs.sb.unallocb) (hi : 12 ≤ i) (hlt : i < 12 + G.blksize / 4)
    (hroot : inode.blocks 12 = 0) :
    ∃ fs', SameButFree G fs fs' ∧ ¬ SetsBlock fs' inode inodeidx i d := by
  have hw := h.stocked.width_ge
  obtain ⟨k, -, hk, hne, -⟩ := exists_index (i - 12) 0
  have hsame := refill_sameButFree (G := G) fs fun _ _ => otherWord (fs.word 0 k)
  have hs' := hsame.stocked hG (groups_pos hidx) h.stocked
  refine ⟨_, hsame, fun hset => ?_⟩
  obtain ⟨n, hfree, hget⟩ := single_alloc_get (d := d) hG hs' hidx hpos hi hlt hroot
  have hothers := hset.others (12 + k) (by rw [hs'.fits.sized.width]; omega) (by omega)
  rw [hget k (by omega) hne, hs'.fits.sized.getblock_single (by omega), hroot,
    hsame.word h.stocked (h.zero_used hG) (by omega),
    word_refill h.stocked ((hsame.freeBlock hG h.stocked).mp hfree) (by omega), u32_otherWord] at hothers
  exact otherWord_ne _ hothers

theorem double_alloc_wrong (hG : G.Sound) (h : FileOf G fs inode) (hidx : G.IsInode inodeidx)
    (hpos : 0 < fs.sb.unallocb) (hi : 12 + G.blksize / 4 ≤ i)
    (hlt : i < 12 + G.blksize / 4 + (G.blksize / 4) ^ 2) (hroot : inode.blocks 13 ≠ 0)
    (hentry : fs.word (inode.blocks 13) (outerIdx (G.blksize / 4) i) = 0) :
    ∃ fs', SameButFree G fs fs' ∧ ¬ SetsBlock fs' inode inodeidx i d := by
  have hw := h.stocked.width_ge
  have hout := outerIdx_lt hi hlt
  obtain ⟨o, -, ho, hne, -⟩ := exists_index (innerIdx (G.blksize / 4) i) 0
  have hsame := refill_sameButFree (G := G) fs fun _ _ => otherWord (fs.word 0 o)
  have hs' := hsame.stocked hG (groups_pos hidx) h.stocked
  have hused := (h.root_used hroot).2
  have hentry' := (hsame.word h.stocked hused hout).trans hentry
  refine ⟨_, hsame, fun hset => ?_⟩
  obtain ⟨n, hfree, hget⟩ := double_alloc_get (d := d) hG hs' hidx hpos hi hlt hroot
    (fun hin => hused ((hsame.freeBlock hG h.stocked).mp hin)) hentry'
  obtain ⟨-, hin', hlt'⟩ := double_surj hout (show o < G.blksize / 4 by omega)
  have hothers := hset.others _ (by rw [hs'.fits.sized.width]; exact hlt') fun heq =>
    hne (by rw [← heq, hin'])
  rw [hget o (by omega) hne, hs'.fits.sized.getblock_double hout (by omega), hentry',
    hsame.word h.stocked (h.zero_used hG) (by omega),
    word_refill h.stocked ((hsame.freeBlock hG h.stocked).mp hfree) (by omega), u32_otherWord] at hothers
  exact otherWord_ne _ hothers

/-- With two free blocks, one of them is another than `b`. -/
theorem Stocked.exists_free_ne (hG : G.Sound) (h : Stocked G fs) (hidx : G.IsInode inodeidx)
    (htwo : 2 ≤ fs.sb.unallocb) (b : Nat) : ∃ m, FreeBlock G fs m ∧ m ≠ b := by
  obtain ⟨n, fs₁, -, htakes⟩ := h.alloc hG hidx (by omega) ⟨fun _ => 0⟩
  have htotal := htakes.total
  obtain ⟨n₂, fs₂, -, htakes₂⟩ := htakes.stocked.alloc hG hidx (by omega) ⟨fun _ => 0⟩
  obtain ⟨hfree, hne⟩ := htakes.left n₂ htakes₂.free
  by_cases heq : n = b
  · exact ⟨n₂, hfree, heq ▸ hne⟩
  · exact ⟨n, htakes.free, heq⟩

/-- The free blocks are filled so that the new table leads to a free block. -/
theorem double_root_wrong (hG : G.Sound) (h : FileOf G fs inode) (hidx : G.IsInode inodeidx)
    (htwo : 2 ≤ fs.sb.unallocb) (hi : 12 + G.blksize / 4 ≤ i)
    (hlt : i < 12 + G.blksize / 4 + (G.blksize / 4) ^ 2) (hroot : inode.blocks 13 = 0) :
    ∃ fs', SameButFree G fs fs' ∧ ¬ SetsBlock fs' inode inodeidx i d := by
  classical
  have hw := h.stocked.width_ge
  have hout := outerIdx_lt hi hlt
  -- a sibling in the first table, and one of the words below it
  obtain ⟨s, hs2, hs, hsne, -⟩ := exists_index (outerIdx (G.blksize / 4) i) 0
  obtain ⟨o, ho, hone, hone', hos⟩ : ∃ o < G.blksize / 4, o ≠ outerIdx (G.blksize / 4) i ∧
      o ≠ innerIdx (G.blksize / 4) i ∧ o ≠ s := by
    obtain ⟨o, ho2, ho, hne, hne'⟩ := exists_index (outerIdx (G.blksize / 4) i - 5)
      (innerIdx (G.blksize / 4) i - 5)
    by_cases hz : 0 ≠ outerIdx (G.blksize / 4) i ∧ 0 ≠ innerIdx (G.blksize / 4) i
    · exact ⟨0, by omega, hz.1, hz.2, by omega⟩
    · exact ⟨o + 5, by omega, by omega, by omega, by omega⟩
  obtain ⟨m, hm, hmne⟩ := h.stocked.exists_free_ne hG hidx htwo (fs.word 0 s)
  obtain ⟨c, hc⟩ : ∃ c, c = if FreeBlock G fs (fs.word 0 s) then 0 else fs.word (fs.word 0 s) o :=
    ⟨_, rfl⟩
  obtain ⟨v, hv⟩ : ∃ v : Nat → Nat → Nat, v = fun b k =>
    if k = s then m else if k = o ∧ b = m then otherWord c else 0 := ⟨_, rfl⟩
  have hsame := refill_sameButFree (G := G) fs v
  have hs' := hsame.stocked hG (groups_pos hidx) h.stocked
  have hiff : ∀ {b}, FreeBlock G (fs.refill G v) b ↔ FreeBlock G fs b := hsame.freeBlock hG h.stocked
  have hword : ∀ {b k}, FreeBlock G fs b → k < G.blksize / 4 → (fs.refill G v).word b k = u32 (v b k) :=
    fun hb hk => word_refill h.stocked hb hk
  have hu : u32 m = m := Nat.mod_eq_of_lt (h.stocked.free m hm).2
  have hv_s : ∀ b, v b s = m := fun b => by rw [hv]; exact if_pos rfl
  have hv_out : ∀ b, v b (outerIdx (G.blksize / 4) i) = 0 := fun b => by
    simp only [hv, if_neg (Ne.symm hsne), Ne.symm hone, false_and, if_false]
  have hv_o : ∀ b, v b o = if b = m then otherWord c else 0 := fun b => by
    simp only [hv, if_neg hos, true_and]
  refine ⟨_, hsame, fun hset => ?_⟩
  obtain ⟨n, hfree, hget⟩ := double_root_get (d := d) hG hs' hidx htwo hi hlt hroot fun n hn => by
    rw [hword (hiff.mp hn) hout, hv_out]
    rfl
  have hnext : (fs.refill G v).word n s = m := by rw [hword (hiff.mp hfree) (by omega), hv_s, hu]
  obtain ⟨hout', -, hlt'⟩ := double_surj (show s < G.blksize / 4 by omega) ho
  have hothers := hset.others _ (by rw [hs'.fits.sized.width]; exact hlt') fun heq =>
    hsne (by rw [← heq, hout'])
  rw [hget s (by omega) hsne o ho hone hone' (by rw [hnext]; exact (h.stocked.free m hm).1), hnext,
    hword hm ho, hv_o, if_pos rfl, u32_otherWord,
    hs'.fits.sized.getblock_double (by omega) ho, hroot,
    hsame.word h.stocked (h.zero_used hG) (by omega)] at hothers
  refine otherWord_ne c (hothers.trans ?_)
  rw [hc]
  split_ifs with hg
  · rw [hword hg ho, hv_o, if_neg (Ne.symm hmne)]
    rfl
  · exact hsame.word h.stocked hg ho

theorem SameButFree.fileOf (hsame : SameButFree G fs fs') (hG : G.Sound) (hidx : G.IsInode inodeidx)
    (h : FileOf G fs inode) : FileOf G fs' inode := by
  have hwidth : (fs'.blockmap inode).width = (fs.blockmap inode).width :=
    congrArg (· / 4) hsame.blksize
  have hword : ∀ t, (fs.blockmap inode).IsTable t → ∀ k < (fs.blockmap inode).width,
      (fs'.blockmap inode).word t k = (fs.blockmap inode).word t k := fun t ht k hk =>
    hsame.word h.stocked (h.used t ht).2 (by rw [← h.stocked.fits.sized.width]; exact hk)
  refine ⟨hsame.stocked hG (groups_pos hidx) h.stocked, ?_, ?_⟩
  · have hall : (fs'.blockmap inode).all = (fs.blockmap inode).all :=
      BlockMap.all_congr rfl hwidth hword
    rw [hall]
    exact h.nodup
  · rintro t ⟨slot, hslot, ht⟩
    have htables : tables (fs'.blockmap inode).word (fs'.blockmap inode).width (depth slot)
        (inode.blocks slot) = tables (fs.blockmap inode).word (fs.blockmap inode).width (depth slot)
        (inode.blocks slot) := by
      rw [hwidth]
      exact tables_congr fun t ht => hword t ⟨slot, hslot, ht⟩
    have hold : (fs.blockmap inode).IsTable t := ⟨slot, hslot, htables ▸ ht⟩
    exact ⟨(h.used t hold).1, fun hfree => (h.used t hold).2 ((hsame.freeBlock hG h.stocked).mp hfree)⟩

theorem SameButFree.inPlace (hsame : SameButFree G fs fs') (hG : G.Sound) (h : FileOf G fs inode)
    (hi : i < 12 + G.blksize / 4 + (G.blksize / 4) ^ 2) (hplace : fs.SetsInPlace inode i d) :
    fs'.SetsInPlace inode i d := by
  obtain ⟨habsent, hstray⟩ := hplace
  have hwidth : fs'.blksize / 4 = fs.blksize / 4 := congrArg (· / 4) hsame.blksize
  have hsize := h.stocked.fits.sized.width
  have hword : ∀ {t k}, ¬ FreeBlock G fs t → k < fs.blksize / 4 → fs'.word t k = fs.word t k :=
    fun ht hk => hsame.word h.stocked ht (by rwa [← hsize])
  unfold Ext2fs.absent at habsent
  unfold Ext2fs.SetsInPlace Ext2fs.absent
  rw [hwidth]
  refine ⟨?_, fun hge hlt hroot hex => ?_⟩
  · by_cases hroot : inode.blocks 13 = 0
    · simpa only [hroot, if_true] using habsent
    · by_cases hrange : i < 12 + fs.blksize / 4
      · simpa only [if_pos hrange] using habsent
      · rw [hword (h.root_used hroot).2 (outerIdx_lt (by omega) (by rwa [hsize]))]
        exact habsent
  · obtain ⟨s, hs, heq⟩ := hex
    rw [hword (h.zero_used hG) hs] at heq
    rw [if_neg (by omega), if_pos hlt] at habsent
    have hsingle : inode.blocks 12 ≠ 0 := fun h0 => by simp [h0] at habsent
    have hused : ¬ FreeBlock G fs (inode.blocks 12) := by
      refine (h.used _ ⟨12, by decide, ?_⟩).2
      change inode.blocks 12 ∈ tables fs.word (fs.blksize / 4) 1 (inode.blocks 12)
      rw [tables_succ hsingle]
      exact List.mem_cons_self
    rw [hword hused (by omega)]
    exact hstray hge hlt hroot ⟨s, hs, heq⟩

/-- Without a double-indirect block, a word of block 0 that is the number of the single-indirect one
leads to the word that is written. -/
theorem stray_wrong (h : FileOf G fs inode) (hd : d < 2 ^ 32) (hi : 12 ≤ i)
    (hlt : i < 12 + G.blksize / 4) (hsingle : inode.blocks 12 ≠ 0) (hroot : inode.blocks 13 = 0)
    (hs : s < G.blksize / 4) (hstray : fs.word 0 s = inode.blocks 12)
    (hne : fs.word (inode.blocks 12) (i - 12) ≠ d) : ¬ SetsBlock fs inode inodeidx i d := by
  intro hset
  have hsized := h.stocked.fits.sized
  have hmounted := h.stocked.fits.mounted
  have hk : i - 12 < G.blksize / 4 := by omega
  obtain ⟨-, -, hrange⟩ := double_surj hs hk
  have hothers := hset.others (12 + G.blksize / 4 + (s * (G.blksize / 4) + (i - 12)))
    (by rwa [hsized.width]) (by omega)
  rw [set_single hmounted hi (by rwa [hsized.width]) hsingle, hsized.setword.getblock_double hs hk,
    hsized.getblock_double hs hk, hroot, hsized.word_of_ne hk hs (.inl hsingle), hstray,
    word_setword] at hothers
  exact hne (hothers.symm.trans (Nat.mod_eq_of_lt hd))

/-- **A block is set, whatever the free blocks hold**, exactly if no table has to be allocated for it
(and block 0, which is read in place of an absent table, does not lead to the word). -/
theorem inodesetblock_iff (hG : G.Sound) (h : FileOf G fs inode) (hidx : G.IsInode inodeidx)
    (hi : i < 12 + fs.blksize / 4 + (fs.blksize / 4) ^ 2) (hd : d < 2 ^ 32)
    (hfree : fs.absent inode i ≤ fs.sb.unallocb) :
    (∀ fs', SameButFree G fs fs' → SetsBlock fs' inode inodeidx i d) ↔ fs.SetsInPlace inode i d := by
  have hwidth := h.stocked.fits.sized.width
  constructor
  · intro hall
    by_contra hplace
    rw [hwidth] at hi
    unfold Ext2fs.SetsInPlace Ext2fs.absent at hplace
    unfold Ext2fs.absent at hfree
    rw [hwidth] at hplace hfree
    rcases Nat.lt_or_ge i 12 with hdirect | hge
    · exact hplace ⟨if_pos hdirect, fun hge => absurd hge (by omega)⟩
    rw [if_neg (by omega)] at hplace hfree
    rcases Nat.lt_or_ge i (12 + G.blksize / 4) with hlt | hge'
    · rw [if_pos hlt] at hplace hfree
      by_cases hsingle : inode.blocks 12 = 0
      · rw [if_pos hsingle] at hfree
        obtain ⟨fs', hsame, hwrong⟩ := single_alloc_wrong (d := d) hG h hidx hfree hge hlt hsingle
        exact hwrong (hall fs' hsame)
      · refine hplace ⟨if_neg hsingle, fun _ _ hroot hex => ?_⟩
        obtain ⟨s, hs, hstray⟩ := hex
        by_contra hne
        exact stray_wrong h hd hge hlt hsingle hroot hs hstray hne (hall fs (SameButFree.refl fs))
    · rw [if_neg (by omega)] at hplace hfree
      by_cases hroot : inode.blocks 13 = 0
      · rw [if_pos hroot] at hfree
        obtain ⟨fs', hsame, hwrong⟩ := double_root_wrong (d := d) hG h hidx hfree hge' hi hroot
        exact hwrong (hall fs' hsame)
      · rw [if_neg hroot] at hplace hfree
        by_cases hentry : fs.word (inode.blocks 13) (outerIdx (G.blksize / 4) i) = 0
        · rw [if_pos hentry] at hfree
          obtain ⟨fs', hsame, hwrong⟩ := double_alloc_wrong (d := d) hG h hidx hfree hge' hi hroot hentry
          exact hwrong (hall fs' hsame)
        · exact hplace ⟨if_neg hentry, fun _ hlt => absurd hlt (by omega)⟩
  · intro hplace fs' hsame
    have hfile := hsame.fileOf hG hidx h
    refine sets_inPlace hfile.stocked.fits.mounted hfile.nodup ?_ hd
      (hsame.inPlace hG h (by rwa [hwidth] at hi) hplace)
    rwa [hsame.blksize]

/-! ## The small image -/

theorem smallImage_stocked : Stocked smallGeometry smallImage := by
  refine ⟨smallImage_fits, smallImage_exact, fun b hb => ?_⟩
  obtain ⟨g, hg, i, hi, rfl, hbit⟩ := hb
  obtain rfl : g = 0 := Nat.lt_one_iff.mp hg
  have hused : ∀ i < 7, smallImage.blockbit smallGeometry 0 i = true := by decide
  have hge : 7 ≤ i := by
    by_contra hlt
    rw [hused i (by omega)] at hbit
    exact absurd hbit (by decide)
  have hi' : i < 64 := hi
  refine ⟨fun x hx => small_outside ?_, by omega⟩
  have hdiv : x / 1024 = 0 * 64 + i := hx
  omega

theorem emptyInode_file : FileOf smallGeometry smallImage emptyInode := by
  have hzero : ∀ slot, (smallImage.blockmap emptyInode).roots slot = 0 := fun slot =>
    read_zeros fun _ _ _ => rfl
  refine ⟨smallImage_stocked, ?_, ?_⟩
  · have hall : (smallImage.blockmap emptyInode).all = [] :=
      List.flatMap_eq_nil_iff.mpr fun slot _ => by rw [hzero, blocks_zero]
    rw [hall]
    exact List.nodup_nil
  · rintro t ⟨slot, -, ht⟩
    rw [hzero, tables_zero] at ht
    exact absurd ht List.not_mem_nil

theorem inodesetblock_iff_empty : SetsBlock smallImage emptyInode 12 3 40 :=
  (inodesetblock_iff smallGeometry_sound emptyInode_file ⟨by decide, by decide⟩ (by decide) (by decide)
    (by decide)).mpr ⟨by decide, fun hge => absurd hge (by decide)⟩ _ (.refl _)

/-- The small image, with a word in block 7, which is free. -/
def staleImage : Ext2fs := smallImage.setword 7 1 77

theorem staleImage_same : SameButFree smallGeometry smallImage staleImage := by
  refine ⟨rfl, rfl, rfl, fun x hx => ?_⟩
  refine write_sameOff _ _ _ _ x fun hin => hx ⟨0, by decide, 7, by decide, ?_, by decide⟩
  have hin' : 7 * 1024 + 1 * 4 ≤ x ∧ x < 7 * 1024 + 1 * 4 + 4 := hin
  have hdiv : x / 1024 = 7 := by omega
  exact hdiv

/-- Block 12 is set, in an indirect block that is allocated for it, and block 13 is 77 with it. -/
theorem inodesetblock_wrong : FileOf smallGeometry staleImage emptyInode ∧
    smallGeometry.IsInode 12 ∧ staleImage.absent emptyInode 12 ≤ staleImage.sb.unallocb ∧
    staleImage.inodegetblock emptyInode 13 = 0 ∧
    (staleImage.inodesetblock emptyInode 12 12 40).1.inodegetblock
      (staleImage.inodesetblock emptyInode 12 12 40).2 13 = 77 ∧
    ¬ SetsBlock staleImage emptyInode 12 12 40 := by
  have hidx : smallGeometry.IsInode 12 := ⟨by decide, by decide⟩
  have hbefore : staleImage.inodegetblock emptyInode 13 = 0 := by decide
  have hafter : (staleImage.inodesetblock emptyInode 12 12 40).1.inodegetblock
      (staleImage.inodesetblock emptyInode 12 12 40).2 13 = 77 := by decide
  refine ⟨staleImage_same.fileOf smallGeometry_sound hidx emptyInode_file, hidx, by decide, hbefore,
    hafter, fun hset => ?_⟩
  have hothers := hset.others 13 (by decide) (by decide)
  rw [hbefore, hafter] at hothers
  exact absurd hothers (by decide)

end Lyre.Ext2

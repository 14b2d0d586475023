import Lyre.Properties.Ext2Blocks
import Lyre.Properties.Ext2Read

/-!
# What `ext2fs_inodewrite` stores

Where all blocks of the range are there, the file is not given a further block, and the loop stores the
bytes block by block at their places. With `count` 0 the range has no block, but if it begins inside of
one, `ext2fs_inodegrow` counts that block, and it is allocated if it is absent (`inodewrite_stores`).
-/

namespace Lyre.Ext2

open Infra Infra.Bytes Ext2fs

variable {G : Geometry} {fs fs' : Ext2fs} {inode inode' : Inode} {m buf : Mem}
  {i k n p q off count head left start v inodeidx : Nat}

/-- The blocks of a range of bytes are there: distinct data blocks below the triple range, and none of
them is a table of the inode. -/
structure Covered (G : Geometry) (fs : Ext2fs) (inode : Inode) (off count : Nat) : Prop where
  mapped : ∀ p, off ≤ p → p < off + count → (fs.blockmap inode).get (p / fs.blksize) ≠ 0
  distinct : ∀ p q, off ≤ p → p < off + count → off ≤ q → q < off + count →
    p / fs.blksize ≠ q / fs.blksize →
    (fs.blockmap inode).get (p / fs.blksize) ≠ (fs.blockmap inode).get (q / fs.blksize)
  data : ∀ p, off ≤ p → p < off + count → G.DataBlock ((fs.blockmap inode).get (p / fs.blksize)) ∧
    ¬ (fs.blockmap inode).IsTable ((fs.blockmap inode).get (p / fs.blksize))
  tables : ∀ t, (fs.blockmap inode).IsTable t → G.DataBlock t
  below : off + count ≤ (12 + fs.blksize / 4 + (fs.blksize / 4) ^ 2) * fs.blksize
  /-- The numbers of file blocks are of 32 bits. -/
  numbers : off + count ≤ 2 ^ 32 * fs.blksize

/-- The range has a byte, or it begins at a block, or the block in which it begins is there. -/
def Ext2fs.GrowsNot (fs : Ext2fs) (inode : Inode) (off count : Nat) : Prop :=
  count ≠ 0 ∨ fs.blksize ∣ off ∨ fs.inodegetblock inode (off / fs.blksize) ≠ 0

/-- The inode of a file that has been written. -/
def Inode.grown (inode : Inode) (size : Nat) : Inode :=
  if inode.inodesize < size then inode.setInodesize size else inode

/-- The bytes of an inode on the device. -/
def Geometry.InInode (G : Geometry) (inodeidx x : Nat) : Prop :=
  G.start (G.inodeRegion inodeidx) ≤ x ∧ x < G.start (G.inodeRegion inodeidx) + Inode.size

/-- The blocks of a range of bytes, as the code finds them, are there: distinct data blocks that are
found without a look at the range itself or at the inode on the device. -/
structure Placed (G : Geometry) (fs : Ext2fs) (inode : Inode) (inodeidx off count : Nat) : Prop where
  mapped : ∀ p, off ≤ p → p < off + count → fs.inodegetblock inode (p / fs.blksize) ≠ 0
  distinct : ∀ p q, off ≤ p → p < off + count → off ≤ q → q < off + count →
    p / fs.blksize ≠ q / fs.blksize →
    fs.inodegetblock inode (p / fs.blksize) ≠ fs.inodegetblock inode (q / fs.blksize)
  data : ∀ p, off ≤ p → p < off + count → G.DataBlock (fs.inodegetblock inode (p / fs.blksize))
  found : ∀ fs' inode', Fits G fs' → (∀ slot < 15, inode'.blocks slot = inode.blocks slot) →
    (∀ x, ¬ G.InInode inodeidx x → (∀ k < count, x ≠ fs.bytepos inode (off + k)) →
      fs'.device x = fs.device x) →
    ∀ p, off ≤ p → p < off + count →
      fs'.inodegetblock inode' (p / fs.blksize) = fs.inodegetblock inode (p / fs.blksize)
  /-- The numbers of file blocks are of 32 bits. -/
  numbers : off + count ≤ 2 ^ 32 * fs.blksize

/-- The bytes are stored at their places. Beside them nothing changes but the inode on the device, so
that no bitmap and no table does, and in the inode nothing but the size. -/
structure WritesRight (G : Geometry) (fs : Ext2fs) (inode : Inode) (buf : Mem)
    (inodeidx off count : Nat) : Prop where
  stored : ∀ k < count, (fs.inodewrite inode buf inodeidx off count).1.device
    (fs.bytepos inode (off + k)) = buf k
  kept : ∀ x, (∀ k < count, x ≠ fs.bytepos inode (off + k)) →
    ¬ G.InInode inodeidx x → (fs.inodewrite inode buf inodeidx off count).1.device x = fs.device x
  updated : (fs.inodewrite inode buf inodeidx off count).2.1 = inode.grown (off + count)
  size : (fs.inodewrite inode buf inodeidx off count).2.1.inodesize = max inode.inodesize (off + count)
  entry : ∀ k < Inode.size, (fs.inodewrite inode buf inodeidx off count).1.region G
    (G.inodeRegion inodeidx) k = (fs.inodewrite inode buf inodeidx off count).2.1.raw k
  superblock : (fs.inodewrite inode buf inodeidx off count).1.sb = fs.sb
  returned : (fs.inodewrite inode buf inodeidx off count).2.2 = count

/-! ## The inode -/

theorem setInodesize_inodesize (hv : v < 2 ^ 64) : (inode.setInodesize v).inodesize = v := by
  have hlo : (inode.setInodesize v).sizelo = v % 2 ^ 32 :=
    (read_sameOff (write_sameOff _ _ _ _) (by unfold Apart; omega)).trans (read_write _ _ 4 v)
  have hhi : (inode.setInodesize v).sizehi = v / 2 ^ 32 % 2 ^ 32 := read_write _ _ 4 _
  rw [Inode.inodesize, hlo, hhi]
  omega

theorem setInodesize_blocks (hk : k < 15) : (inode.setInodesize v).blocks k = inode.blocks k :=
  (read_sameOff (write_sameOff _ _ _ _) (by unfold Apart; omega)).trans
    (read_sameOff (write_sameOff _ _ _ _) (by unfold Apart; omega))

theorem setInodesize_sectors : (inode.setInodesize v).sectors = inode.sectors :=
  (read_sameOff (write_sameOff _ _ _ _) (by unfold Apart; omega)).trans
    (read_sameOff (write_sameOff _ _ _ _) (by unfold Apart; omega))

theorem grown_blocks (hk : k < 15) : (inode.grown v).blocks k = inode.blocks k := by
  unfold Inode.grown
  split_ifs
  · exact setInodesize_blocks hk
  · rfl

theorem grown_sectors : (inode.grown v).sectors = inode.sectors := by
  unfold Inode.grown
  split_ifs
  · exact setInodesize_sectors
  · rfl

theorem grown_inodesize (hv : v < 2 ^ 64) : (inode.grown v).inodesize = max inode.inodesize v := by
  unfold Inode.grown
  split_ifs with hlt
  · rw [setInodesize_inodesize hv, Nat.max_eq_right (Nat.le_of_lt hlt)]
  · rw [Nat.max_eq_left (Nat.not_lt.mp hlt)]

/-! ## The blocks of the range -/

theorem bytepos_div (hpos : 0 < fs.blksize) :
    fs.bytepos inode p / fs.blksize = fs.inodegetblock inode (p / fs.blksize) := by
  rw [bytepos, place, Nat.mul_comm, Nat.mul_add_div hpos, Nat.div_eq_of_lt (Nat.mod_lt p hpos),
    Nat.add_zero]

namespace Covered

theorem index_lt (hf : Fits G fs) (h : Covered G fs inode off count) (hp : p < off + count) :
    p / fs.blksize < 12 + fs.blksize / 4 + (fs.blksize / 4) ^ 2 ∧ p / fs.blksize < 2 ^ 32 := by
  have hpos := hf.mounted.blksize_pos
  rw [Nat.div_lt_iff_lt_mul hpos, Nat.div_lt_iff_lt_mul hpos]
  have := h.below
  have := h.numbers
  exact ⟨by omega, by omega⟩

theorem getblock (hf : Fits G fs) (h : Covered G fs inode off count) (hp : off ≤ p)
    (hlt : p < off + count) :
    fs.inodegetblock inode (p / fs.blksize) = (fs.blockmap inode).get (p / fs.blksize) :=
  getblock_eq_of_mapped hf.mounted (h.index_lt hf hlt).1 (h.mapped p hp hlt)

theorem getblock_kept (hf : Fits G fs) (h : Covered G fs inode off count) (hf' : Fits G fs')
    (hroots : ∀ slot < 15, inode'.blocks slot = inode.blocks slot)
    (htables : ∀ x, (fs.blockmap inode).IsTable (x / G.blksize) → fs'.device x = fs.device x)
    (hp : off ≤ p) (hlt : p < off + count) :
    fs'.inodegetblock inode' (p / fs.blksize) = fs.inodegetblock inode (p / fs.blksize) := by
  have hwidth : (fs'.blockmap inode').width = (fs.blockmap inode).width := by
    change fs'.blksize / 4 = fs.blksize / 4
    rw [hf'.blksize, hf.blksize]
  have hindex := (h.index_lt hf hlt).1
  have hget : (fs'.blockmap inode').get (p / fs.blksize) = (fs.blockmap inode).get (p / fs.blksize) := by
    refine BlockMap.get_congr hroots hwidth (fun t ht k hk => ?_) ?_
    · refine word_congr hf hf' (by rw [← hf.blksize]; exact hk) fun x hx => htables x ?_
      rwa [hx]
    · change p / fs.blksize < maxblocks (fs.blksize / 4)
      unfold maxblocks
      omega
  rw [h.getblock hf hp hlt, ← hget]
  refine getblock_eq_of_mapped hf'.mounted ?_ (by rw [hget]; exact h.mapped p hp hlt)
  rwa [hf'.blksize, ← hf.blksize]

theorem placed (hG : G.Sound) (hf : Fits G fs) (hidx : G.IsInode inodeidx)
    (h : Covered G fs inode off count) : Placed G fs inode inodeidx off count where
  mapped p hp hlt := by
    rw [h.getblock hf hp hlt]
    exact h.mapped p hp hlt
  distinct p q hp hlt hq hlt' hne := by
    rw [h.getblock hf hp hlt, h.getblock hf hq hlt']
    exact h.distinct p q hp hlt hq hlt' hne
  data p hp hlt := by
    rw [h.getblock hf hp hlt]
    exact (h.data p hp hlt).1
  found fs' inode' hf' hroots hsame p hp hlt := by
    refine h.getblock_kept hf hf' hroots (fun x hx => hsame x (fun hin => ?_) fun k hk heq => ?_) hp hlt
    · exact h.tables _ hx x rfl _ (Fits.valid_inode hG hidx) hin
    · refine (h.data (off + k) (by omega) (by omega)).2 ?_
      have hdiv : fs.bytepos inode (off + k) / fs.blksize =
          (fs.blockmap inode).get ((off + k) / fs.blksize) := by
        rw [bytepos_div hf.mounted.blksize_pos, h.getblock hf (by omega) (by omega)]
      rwa [← hdiv, hf.blksize, ← heq]
  numbers := h.numbers

end Covered

namespace Placed

theorem bytepos_outside (hf : Fits G fs) (h : Placed G fs inode inodeidx off count) (hp : off ≤ p)
    (hlt : p < off + count) : G.Outside (fs.bytepos inode p) :=
  h.data p hp hlt _ (by rw [← hf.blksize]; exact bytepos_div hf.mounted.blksize_pos)

theorem bytepos_inj (hf : Fits G fs) (h : Placed G fs inode inodeidx off count) (hp : off ≤ p)
    (hlt : p < off + count) (hq : off ≤ q) (hlt' : q < off + count) (hne : p ≠ q) :
    fs.bytepos inode p ≠ fs.bytepos inode q := fun heq =>
  hne (place_inj hf.mounted.blksize_pos
    (fun hdiv => block_apart (h.distinct p q hp hlt hq hlt' hdiv)) heq)

theorem bytepos_kept (hf : Fits G fs) (h : Placed G fs inode inodeidx off count) (hf' : Fits G fs')
    (hroots : ∀ slot < 15, inode'.blocks slot = inode.blocks slot)
    (hsame : ∀ x, ¬ G.InInode inodeidx x → (∀ k < count, x ≠ fs.bytepos inode (off + k)) →
      fs'.device x = fs.device x)
    (hp : off ≤ p) (hlt : p < off + count) : fs'.bytepos inode' p = fs.bytepos inode p := by
  rw [bytepos, bytepos, place, place, show fs'.blksize = fs.blksize by rw [hf'.blksize, hf.blksize],
    h.found fs' inode' hf' hroots hsame p hp hlt]

end Placed

/-! ## Growing -/

theorem assignLoop_mapped (hall : ∀ k, i ≤ k → k < i + left →
      fs.inodegetblock inode (u32 (start + k)) ≠ 0) :
    assignLoop inodeidx start left i fs inode = (fs, inode) := by
  induction left generalizing i with
  | zero => rfl
  | succ left ih =>
    rw [assignLoop, if_pos (hall i (Nat.le_refl i) (by omega))]
    exact ih fun k hk hk' => hall k (by omega) (by omega)

theorem Ext2fs.Mounted.shift_eq (h : fs.Mounted) : 2 ^ (10 + fs.sb.blksize) = fs.blksize := by
  rw [h.blksize, Nat.pow_add]

theorem inodegrow_eq (h : fs.Mounted) (hwrap : off + count ≤ 2 ^ 62) :
    fs.inodegrow inode inodeidx off count = fs.inodeassignblocks inode inodeidx (off / fs.blksize)
      ((off % fs.blksize + count + (fs.blksize - 1)) / fs.blksize) := by
  have hpos := h.blksize_pos
  have hle := h.blksize_le
  have hmod := Nat.mod_lt off hpos
  have hstart : (off - off % fs.blksize) / fs.blksize = off / fs.blksize := by
    rw [Nat.div_eq_iff hpos]
    have := Nat.div_add_mod off fs.blksize
    rw [Nat.mul_comm] at this
    omega
  have hoff : off % fs.blksize ≤ off := Nat.mod_le off fs.blksize
  rw [inodegrow, h.shift_eq, hstart, u64_of_lt (by omega)]

theorem Placed.counted (hf : Fits G fs) (h : Placed G fs inode inodeidx off count)
    (hgrow : fs.GrowsNot inode off count) (hk : k * fs.blksize < off % fs.blksize + count) :
    fs.inodegetblock inode (u32 (off / fs.blksize + k)) ≠ 0 := by
  have hpos := hf.mounted.blksize_pos
  have hsplit := Nat.div_add_mod off fs.blksize
  have hmod := Nat.mod_lt off hpos
  rw [Nat.mul_comm] at hsplit
  have hindex : ∀ p, p < off + count → u32 (p / fs.blksize) = p / fs.blksize := fun p hlt =>
    Nat.mod_eq_of_lt ((Nat.div_lt_iff_lt_mul hpos).mpr (Nat.lt_of_lt_of_le hlt h.numbers))
  -- the first byte of the range that is in the block
  by_cases hbyte : k = 0 ∧ count = 0
  · obtain ⟨rfl, rfl⟩ := hbyte
    have hnum := h.numbers
    have hlt : off < 2 ^ 32 * fs.blksize := by
      refine Nat.lt_of_le_of_ne (by omega) fun heq => ?_
      rw [heq, Nat.mul_mod_left] at hk
      omega
    rw [Nat.add_zero, show u32 (off / fs.blksize) = off / fs.blksize from
      Nat.mod_eq_of_lt ((Nat.div_lt_iff_lt_mul hpos).mpr hlt)]
    rcases hgrow with hcount | hdvd | hthere
    · exact absurd rfl hcount
    · rw [Nat.mod_eq_zero_of_dvd hdvd] at hk
      omega
    · exact hthere
  · obtain ⟨p, hp, hlt, hdiv⟩ : ∃ p, off ≤ p ∧ p < off + count ∧
        p / fs.blksize = off / fs.blksize + k := by
      rcases Nat.eq_zero_or_pos k with rfl | hk0
      · exact ⟨off, Nat.le_refl off, by omega, rfl⟩
      · have hmul : fs.blksize ≤ k * fs.blksize := Nat.le_mul_of_pos_left _ hk0
        refine ⟨(off / fs.blksize + k) * fs.blksize, ?_, ?_, Nat.mul_div_cancel _ hpos⟩ <;>
        · rw [Nat.add_mul]
          omega
    rw [← hdiv, hindex p hlt]
    exact h.mapped p hp hlt

theorem inodegrow_none (hf : Fits G fs) (hc : Placed G fs inode inodeidx off count)
    (hgrow : fs.GrowsNot inode off count) :
    fs.inodegrow inode inodeidx off count = (fs.inodewriteentry inode inodeidx, inode) := by
  have hpos := hf.mounted.blksize_pos
  have hle := hf.mounted.blksize_le
  have hnum := hc.numbers
  rw [inodegrow_eq hf.mounted (by omega), inodeassignblocks, assignLoop_mapped fun k _ hk => ?_]
  rw [Nat.zero_add, Nat.lt_div_iff_mul_lt hpos] at hk
  exact hc.counted hf hgrow (by omega)

/-! ## Storing -/

/-- The image with other bytes. -/
def Ext2fs.withDevice (fs : Ext2fs) (m : Mem) : Ext2fs := { fs with device := m }

@[simp] theorem withDevice_device : (fs.withDevice m).device = m := rfl
@[simp] theorem withDevice_blksize : (fs.withDevice m).blksize = fs.blksize := rfl
@[simp] theorem withDevice_sb : (fs.withDevice m).sb = fs.sb := rfl

@[simp] theorem withDevice_withDevice {m' : Mem} : (fs.withDevice m).withDevice m' = fs.withDevice m' :=
  rfl

theorem Placed.fits_scattered (hf : Fits G fs) (hc : Placed G fs inode inodeidx off count)
    (hf' : Fits G fs') (hn : n ≤ count)
    (hs : Scattered fs'.device m buf (fun k => fs.bytepos inode (off + k)) n) :
    Fits G (fs'.withDevice m) := by
  refine hf'.congr rfl rfl (Fits.rfl_static _) fun g hg k hk => ?_
  refine hs.others _ fun d hd heq => ?_
  refine hc.bytepos_outside hf (Nat.le_add_right off d) (by omega) (.desc g) hg ?_
  rw [← heq]
  have hlen : G.length (.desc g) = 32 := rfl
  exact ⟨Nat.le_add_right _ k, by omega⟩

theorem writeLoop_done (left : Nat) (h : count ≤ head) :
    inodewriteLoop inode buf off count left head fs = fs := by
  cases left with
  | zero => rfl
  | succ left => rw [inodewriteLoop, if_neg (Nat.not_lt.mpr h)]

theorem writeLoop_turn (left : Nat) (h : fs.Mounted) (hoff : off + count ≤ 2 ^ 32 * fs.blksize)
    (hhead : head < count) :
    inodewriteLoop inode buf off count (left + 1) head fs =
      inodewriteLoop inode buf off count left (head + fs.readsize off head count)
        (fs.withDevice (put fs.device (fs.bytepos inode (off + head)) (fs.readsize off head count)
          fun k => buf (head + k))) := by
  have hle := Nat.mul_le_mul_left (2 ^ 32) h.blksize_le
  have hdiv : (off + head) / fs.blksize < 2 ^ 32 :=
    (Nat.div_lt_iff_lt_mul h.blksize_pos).mpr (by omega)
  rw [inodewriteLoop, if_pos hhead]
  simp only [u64_of_lt (show off + head < 2 ^ 64 by omega),
    show u32 ((off + head) / fs.blksize) = (off + head) / fs.blksize from Nat.mod_eq_of_lt hdiv]
  rfl

/-- The loop on a device in which the blocks are found. What has been stored so far are the first
`head` bytes. -/
theorem writeLoop_scatters (hf : Fits G fs) (hc : Placed G fs inode inodeidx off count)
    (hf' : Fits G fs') (hroots : ∀ slot < 15, inode'.blocks slot = inode.blocks slot)
    (hkept : ∀ x, ¬ G.InInode inodeidx x → fs'.device x = fs.device x)
    (hleft : count ≤ head + left) (hhead : head ≤ count)
    (hs : Scattered fs'.device m buf (fun k => fs.bytepos inode (off + k)) head) :
    ∃ m', inodewriteLoop inode' buf off count left head (fs'.withDevice m) = fs'.withDevice m' ∧
      Scattered fs'.device m' buf (fun k => fs.bytepos inode (off + k)) count := by
  induction left generalizing head m with
  | zero =>
    obtain rfl : head = count := by omega
    exact ⟨m, rfl, hs⟩
  | succ left ih =>
    rcases Nat.eq_or_lt_of_le hhead with rfl | hlt
    · exact ⟨m, writeLoop_done _ (Nat.le_refl head), hs⟩
    · have hblk : fs'.blksize = fs.blksize := by rw [hf'.blksize, hf.blksize]
      obtain ⟨hsize, hle, hin, -⟩ := @readsize_spec _ off _ _ hf.mounted.blksize_pos hlt
      have hfm := hc.fits_scattered hf hf' hhead hs
      have hplace : (fs'.withDevice m).bytepos inode' (off + head) = fs.bytepos inode (off + head) := by
        refine hc.bytepos_kept hf hfm hroots (fun x hin hx => ?_) (Nat.le_add_right off head) (by omega)
        rw [withDevice_device, hs.others x fun k hk => hx k (by omega), hkept x hin]
      have hread : (fs'.withDevice m).readsize off head count = fs.readsize off head count := by
        unfold Ext2fs.readsize
        rw [withDevice_blksize, hblk]
      have hnum := hc.numbers
      rw [writeLoop_turn left hfm.mounted (by rw [withDevice_blksize, hblk]; exact hnum) hlt, hplace,
        hread, withDevice_withDevice]
      refine ih (by omega) hle (hs.step (fun k hk => ?_) fun k hk d hd => ?_)
      · rw [← Nat.add_assoc]
        exact place_add (by omega)
      · exact hc.bytepos_inj hf (Nat.le_add_right off k) (by omega) (Nat.le_add_right _ _) (by omega)
          (by omega)

/-- An image with an inode written. -/
structure Entered (G : Geometry) (fs : Ext2fs) (inode : Inode) (inodeidx : Nat) (fs' : Ext2fs) : Prop where
  fits : Fits G fs'
  sb : fs'.sb = fs.sb
  entry : ∀ k < Inode.size, fs'.region G (G.inodeRegion inodeidx) k = inode.raw k
  kept : ∀ x, ¬ G.InInode inodeidx x → fs'.device x = fs.device x

theorem writeentry_entered (hG : G.Sound) (h : Fits G fs) (hidx : G.IsInode inodeidx) (inode : Inode) :
    Entered G fs inode inodeidx (fs.inodewriteentry inode inodeidx) := by
  have hvalid := Fits.valid_inode hG hidx
  rw [h.inodewriteentry hG hidx]
  exact ⟨h.writeregion hG hvalid nofun, rfl, fun k hk => region_put_self hk,
    fun x hx => put_sameOff _ _ _ _ x hx⟩

theorem inodewrite_eq (hG : G.Sound) (hf : Fits G fs) (hidx : G.IsInode inodeidx)
    (hc : Placed G fs inode inodeidx off count) (hgrow : fs.GrowsNot inode off count) :
    ∃ fs₂, Entered G fs (inode.grown (off + count)) inodeidx fs₂ ∧
      fs.inodewrite inode buf inodeidx off count =
        (inodewriteLoop (inode.grown (off + count)) buf off count count 0 fs₂,
          inode.grown (off + count), count) := by
  have hle := hf.mounted.blksize_le
  have hnum := hc.numbers
  have hfirst := writeentry_entered hG hf hidx inode
  have hwrap : u64 (off + count) = off + count := u64_of_lt (by omega)
  rw [inodewrite, inodegrow_none hf hc hgrow]
  simp only [hwrap]
  unfold Inode.grown
  split_ifs with hlt
  · have hsecond := writeentry_entered hG hfirst.fits hidx (inode.setInodesize (off + count))
    refine ⟨_, ⟨hsecond.fits, hsecond.sb.trans hfirst.sb, hsecond.entry, fun x hx => ?_⟩, rfl⟩
    rw [hsecond.kept x hx, hfirst.kept x hx]
  · exact ⟨_, hfirst, rfl⟩

theorem inodewrite_scatters (hG : G.Sound) (hf : Fits G fs) (hidx : G.IsInode inodeidx)
    (hc : Placed G fs inode inodeidx off count) (hgrow : fs.GrowsNot inode off count) :
    ∃ fs₂ m', Entered G fs (inode.grown (off + count)) inodeidx fs₂ ∧
      Scattered fs₂.device m' buf (fun k => fs.bytepos inode (off + k)) count ∧
      fs.inodewrite inode buf inodeidx off count =
        (fs₂.withDevice m', inode.grown (off + count), count) := by
  obtain ⟨fs₂, hentered, heq⟩ := @inodewrite_eq _ _ _ buf _ _ _ hG hf hidx hc hgrow
  obtain ⟨m', hloop, hs⟩ := @writeLoop_scatters _ _ _ _ _ _ _ _ _ _ count _ hf hc hentered.fits
    (fun slot hslot => grown_blocks hslot) hentered.kept (by omega) (Nat.zero_le count) .zero
  exact ⟨fs₂, m', hentered, hs, heq.trans (congrArg (·, _) hloop)⟩

theorem writes_right (hG : G.Sound) (hf : Fits G fs) (hidx : G.IsInode inodeidx)
    (hc : Placed G fs inode inodeidx off count) (hgrow : fs.GrowsNot inode off count) :
    WritesRight G fs inode buf inodeidx off count := by
  have hle := hf.mounted.blksize_le
  have hnum := hc.numbers
  obtain ⟨fs₂, m', hentered, hs, hcall⟩ := @inodewrite_scatters _ _ _ buf _ _ _ hG hf hidx hc hgrow
  refine ⟨fun k hk => ?_, fun x hx hin => ?_, by rw [hcall], ?_, fun k hk => ?_, ?_, by rw [hcall]⟩
  · rw [hcall]
    exact hs.moved k hk
  · rw [hcall]
    exact (hs.others x hx).trans (hentered.kept x hin)
  · rw [hcall]
    exact grown_inodesize (by omega)
  · rw [hcall]
    refine (hs.others _ fun d hd heq => ?_).trans (hentered.entry k hk)
    refine hc.bytepos_outside hf (Nat.le_add_right off d) (by omega) _ (Fits.valid_inode hG hidx) ?_
    rw [← heq]
    exact ⟨Nat.le_add_right _ k, Nat.add_lt_add_left hk _⟩
  · rw [hcall]
    exact hentered.sb

/-! ## A range without bytes -/

/-- At most `n` blocks of `c` sectors have been charged to an inode. -/
def Charged (c n : Nat) (inode inode' : Inode) : Prop :=
  ∃ k ≤ n, inode'.sectors = u32 (inode.sectors + k * c)

namespace Charged

variable {c j : Nat} {inode'' : Inode}

theorem of_eq (h : inode'.sectors = inode.sectors) : Charged c n inode inode' := by
  refine ⟨0, Nat.zero_le n, ?_⟩
  rw [h, Nat.zero_mul, Nat.add_zero]
  exact (Nat.mod_eq_of_lt (read_lt _ 4 _)).symm

theorem trans (h : Charged c n inode inode') (h' : Charged c j inode' inode'') :
    Charged c (n + j) inode inode'' := by
  obtain ⟨k, hk, heq⟩ := h
  obtain ⟨k', hk', heq'⟩ := h'
  refine ⟨k + k', Nat.add_le_add hk hk', ?_⟩
  rw [heq', heq, Nat.add_mul, ← Nat.add_assoc]
  exact Nat.mod_add_mod _ _ _

end Charged

theorem setBlocks_sectors (inode : Inode) (k v : Nat) : (inode.setBlocks k v).sectors = inode.sectors :=
  read_sameOff (write_sameOff _ _ _ _) (by unfold Apart; omega)

/-- The sizes that an allocation charges by. -/
structure SameSizes (fs fs' : Ext2fs) : Prop where
  blksize : fs'.blksize = fs.blksize
  sectorsize : fs'.sectorsize = fs.sectorsize

theorem SameSizes.writeentry (h : SameSizes fs fs') (inode : Inode) (inodeidx : Nat) :
    SameSizes fs (fs'.inodewriteentry inode inodeidx) := by
  rw [inodewriteentry]
  exact ⟨h.blksize, h.sectorsize⟩

theorem allocblock_charges (fs : Ext2fs) (inode : Inode) (inodeidx : Nat) :
    SameSizes fs (fs.allocblock inode inodeidx).1 ∧
      Charged (fs.blksize / fs.sectorsize) 1 inode (fs.allocblock inode inodeidx).2.1 := by
  have hloop : ∀ left i, SameSizes fs (allocblockLoop fs inode inodeidx left i).1 ∧
      Charged (fs.blksize / fs.sectorsize) 1 inode (allocblockLoop fs inode inodeidx left i).2.1 := by
    intro left
    induction left with
    | zero => exact fun i => ⟨⟨rfl, rfl⟩, .of_eq rfl⟩
    | succ left ih =>
      intro i
      rw [allocblockLoop]
      dsimp only
      split_ifs
      · exact ih (i + 1)
      · exact ih (i + 1)
      · refine ⟨⟨rfl, rfl⟩, 1, Nat.le_refl 1, ?_⟩
        rw [Nat.one_mul]
        exact (read_write _ _ 4 _).trans (u32_u32 _)
  exact hloop _ _

theorem roottable_charges (fs : Ext2fs) (inode : Inode) (inodeidx slot : Nat) {P : Prop} [Decidable P]
    {r : Ext2fs × Inode}
    (hr : r = if P then
        (((fs.allocblock inode inodeidx).1.inodewriteentry
          ((fs.allocblock inode inodeidx).2.1.setBlocks slot (fs.allocblock inode inodeidx).2.2) inodeidx),
          (fs.allocblock inode inodeidx).2.1.setBlocks slot (fs.allocblock inode inodeidx).2.2)
      else (fs, inode)) :
    SameSizes fs r.1 ∧ Charged (fs.blksize / fs.sectorsize) 1 inode r.2 := by
  subst hr
  split_ifs
  · obtain ⟨hsizes, hcharged⟩ := allocblock_charges fs inode inodeidx
    exact ⟨hsizes.writeentry _ _, hcharged.trans (j := 0) (.of_eq (setBlocks_sectors _ _ _))⟩
  · exact ⟨⟨rfl, rfl⟩, .of_eq rfl⟩

theorem setblock_charges {d : Nat} (h : fs.Mounted)
    (hi : i < 12 + fs.blksize / 4 + (fs.blksize / 4) ^ 2) :
    Charged (fs.blksize / fs.sectorsize) 2 inode (fs.inodesetblock inode inodeidx i d).2 := by
  have hw := h.width_ge
  rcases Nat.lt_or_ge i 12 with hdirect | hge
  · rw [inodesetblock, if_pos hdirect]
    exact .of_eq (setBlocks_sectors _ _ _)
  rcases Nat.lt_or_ge i (12 + fs.blksize / 4) with hsingle | hge'
  · simp only [inodesetblock, h.u32_width]
    rw [if_neg (by omega), if_neg (by omega)]
    obtain ⟨r, hr⟩ : ∃ r : Ext2fs × Inode, r = if inode.blocks 12 = 0 then
        (((fs.allocblock inode inodeidx).1.inodewriteentry
          ((fs.allocblock inode inodeidx).2.1.setBlocks 12 (fs.allocblock inode inodeidx).2.2) inodeidx),
          (fs.allocblock inode inodeidx).2.1.setBlocks 12 (fs.allocblock inode inodeidx).2.2)
      else (fs, inode) := ⟨_, rfl⟩
    obtain ⟨n, hn, heq⟩ := (roottable_charges fs inode inodeidx 12 hr).2
    dsimp only
    rw [← hr]
    exact ⟨n, by omega, heq⟩
  · have hdouble := (div_width_lt_iff (k := i - 12 - fs.blksize / 4) (w := fs.blksize / 4)
      (by omega)).mpr (by omega)
    simp only [inodesetblock, h.u32_width]
    rw [if_neg (by omega), if_pos (by omega), if_neg (by omega)]
    obtain ⟨r, hr⟩ : ∃ r : Ext2fs × Inode, r = if inode.blocks 13 = 0 then
        (((fs.allocblock inode inodeidx).1.inodewriteentry
          ((fs.allocblock inode inodeidx).2.1.setBlocks 13 (fs.allocblock inode inodeidx).2.2) inodeidx),
          (fs.allocblock inode inodeidx).2.1.setBlocks 13 (fs.allocblock inode inodeidx).2.2)
      else (fs, inode) := ⟨_, rfl⟩
    obtain ⟨hsizes, hroot⟩ := roottable_charges fs inode inodeidx 13 hr
    dsimp only
    rw [← hr]
    refine hroot.trans (j := 1) ?_
    split_ifs
    · have hentry := (allocblock_charges r.1 r.2 inodeidx).2
      rw [hsizes.blksize, hsizes.sectorsize] at hentry
      exact hentry
    · exact .of_eq rfl

theorem charges_ne {s c : Nat} (hc : 1 ≤ c) (hle : c ≤ 2 ^ 30) (hk : k ≤ 2) :
    s ≠ ((s + c) % 2 ^ 32 + k * c) % 2 ^ 32 := by
  have hmul : k * c ≤ 2 * 2 ^ 30 := Nat.mul_le_mul hk hle
  rw [Nat.mod_add_mod]
  omega

/-- A block is allocated for a range without bytes, and the inode charged for it. -/
theorem writes_wrong (hG : G.Sound) (hf : Fits G fs) (hx : ExactBlocks G fs) (hfree : fs.SomeFree G)
    (hidx : G.IsInode inodeidx) (hc : Covered G fs inode off count)
    (hsector : 0 < fs.sectorsize ∧ fs.sectorsize ≤ fs.blksize) (hgrow : ¬ fs.GrowsNot inode off count) :
    ¬ WritesRight G fs inode buf inodeidx off count := by
  intro hright
  have hm := hf.mounted
  have hpos := hm.blksize_pos
  have hle := hm.blksize_le
  simp only [GrowsNot, not_or, not_not] at hgrow
  obtain ⟨rfl, hdvd, habsent⟩ := hgrow
  have hnum := hc.numbers
  have hbelow := hc.below
  have hmod : off % fs.blksize ≠ 0 := fun h0 => hdvd (Nat.dvd_of_mod_eq_zero h0)
  have hlt := Nat.mod_lt off hpos
  -- one block is counted, and it is below the triple range
  have hoff : ∀ n, off ≤ n * fs.blksize → off / fs.blksize < n := by
    intro n hn
    rw [Nat.div_lt_iff_lt_mul hpos]
    refine Nat.lt_of_le_of_ne hn fun heq => hmod ?_
    rw [heq, Nat.mul_mod_left]
  have hone : (off % fs.blksize + 0 + (fs.blksize - 1)) / fs.blksize = 1 := by
    rw [Nat.div_eq_iff hpos]
    omega
  have hu : u32 (off / fs.blksize) = off / fs.blksize := Nat.mod_eq_of_lt (hoff _ hnum)
  obtain ⟨g, hg, i, hi, hbit, hcall⟩ := allocblock_takes hG hf hx hfree
  obtain ⟨fs₁, n, halloc⟩ : ∃ fs₁ n, fs.allocblock inode inodeidx = (fs₁, fs.charged inode, n) := by
    rw [hcall, takeblock_eq hG hf hidx hg]
    exact ⟨_, _, rfl⟩
  have hsizes := (allocblock_charges fs inode inodeidx).1
  rw [halloc] at hsizes
  have hfits₁ : fs₁.Mounted := by
    have hchange := (@takeblock_change _ _ inode _ _ hG hf hidx hg i).fits.mounted
    rw [show fs₁ = (fs.takeblock (bitmapSet (fs.region G (.blockbmp g)) i) inode inodeidx g).1 from
      (congrArg Prod.fst halloc).symm.trans (congrArg Prod.fst (hcall inode inodeidx))]
    exact hchange
  have hsectors : (fs.inodewrite inode buf inodeidx off 0).2.1.sectors =
      (fs₁.inodesetblock (fs.charged inode) inodeidx (off / fs.blksize) (u32 n)).2.sectors := by
    rw [inodewrite, inodegrow_eq hm (by omega), hone, inodeassignblocks, assignLoop, Nat.add_zero, hu,
      if_neg (by rw [habsent]; exact not_not.mpr rfl), halloc]
    dsimp only
    split_ifs
    · exact setInodesize_sectors
    · rfl
  obtain ⟨k, hk, hcharged⟩ := @setblock_charges _ (fs.charged inode) (off / fs.blksize) inodeidx (u32 n) hfits₁ (by rw [hsizes.blksize]; exact hoff _ hbelow)
  have hfirst : (fs.charged inode).sectors = u32 (inode.sectors + fs.blksize / fs.sectorsize) :=
    (read_write _ _ 4 _).trans (u32_u32 _)
  have hsame : (fs.inodewrite inode buf inodeidx off 0).2.1.sectors = inode.sectors := by
    rw [hright.updated]
    exact grown_sectors
  rw [hsame, hcharged, hsizes.blksize, hsizes.sectorsize, hfirst] at hsectors
  have hcpos : 1 ≤ fs.blksize / fs.sectorsize := (Nat.le_div_iff_mul_le hsector.1).mpr (by omega)
  have hcle : fs.blksize / fs.sectorsize ≤ 2 ^ 30 := Nat.le_trans (Nat.div_le_self _ _) hle
  exact charges_ne hcpos hcle hk hsectors

/-- **The bytes of a range whose blocks are there** are stored at their places, and nothing but the inode
is changed beside them, if the range has a byte, or begins at a block, or the block in which it begins is
there. Where some block is free, that is exactly so. -/
theorem inodewrite_stores (hG : G.Sound) (hf : Fits G fs) (hidx : G.IsInode inodeidx)
    (hc : Covered G fs inode off count) :
    (fs.GrowsNot inode off count → WritesRight G fs inode buf inodeidx off count) ∧
    (ExactBlocks G fs → fs.SomeFree G → 0 < fs.sectorsize ∧ fs.sectorsize ≤ fs.blksize →
      (WritesRight G fs inode buf inodeidx off count ↔ fs.GrowsNot inode off count)) := by
  have hright := @writes_right _ _ _ buf _ _ _ hG hf hidx (hc.placed hG hf hidx)
  refine ⟨hright, fun hx hfree hsector => ⟨fun hwrites => ?_, hright⟩⟩
  by_contra hgrow
  exact writes_wrong hG hf hx hfree hidx hc hsector hgrow hwrites

/-! ## The small image -/

/-- An inode with two blocks. -/
def pairInode : Inode := (emptyInode.setBlocks 0 7).setBlocks 1 9

theorem pairInode_tables (t : Nat) : ¬ (smallImage.blockmap pairInode).IsTable t := by
  rintro ⟨slot, hslot, ht⟩
  have hroot : ∀ slot < 15, 12 ≤ slot → pairInode.blocks slot = 0 := by decide
  rcases Nat.lt_or_ge slot 12 with hlt | hge
  · rw [show depth slot = 0 by unfold depth; omega] at ht
    exact absurd ht List.not_mem_nil
  · rw [show (smallImage.blockmap pairInode).roots slot = 0 from hroot slot hslot hge,
      Tables.tables_zero] at ht
    exact absurd ht List.not_mem_nil

theorem pairInode_covered : Covered smallGeometry smallImage pairInode 1020 10 := by
  have hget : ∀ p, 1020 ≤ p → p < 1020 + 10 → (p / smallImage.blksize = 0 ∧
      (smallImage.blockmap pairInode).get (p / smallImage.blksize) = 7) ∨
      (p / smallImage.blksize = 1 ∧
        (smallImage.blockmap pairInode).get (p / smallImage.blksize) = 9) := by
    intro p hp hlt
    have hdiv : p / 1024 = 0 ∨ p / 1024 = 1 := by omega
    rcases hdiv with h0 | h1
    · refine .inl ⟨h0, ?_⟩
      rw [show p / smallImage.blksize = 0 from h0, map_direct (by decide)]
      decide
    · refine .inr ⟨h1, ?_⟩
      rw [show p / smallImage.blksize = 1 from h1, map_direct (by decide)]
      decide
  refine ⟨fun p hp hlt => ?_, fun p q hp hlt hq hlt' hne => ?_, fun p hp hlt => ⟨?_, pairInode_tables _⟩,
    fun t ht => absurd ht (pairInode_tables t), by decide, by decide⟩
  · rcases hget p hp hlt with h | h <;> rw [h.2] <;> decide
  · rcases hget p hp hlt with h | h <;> rcases hget q hq hlt' with h' | h' <;> rw [h.2, h'.2]
    · exact absurd (h.1.trans h'.1.symm) hne
    · decide
    · decide
    · exact absurd (h.1.trans h'.1.symm) hne
  · intro x hx
    refine small_outside ?_
    have hdiv : x / 1024 = (smallImage.blockmap pairInode).get (p / smallImage.blksize) := hx
    rcases hget p hp hlt with h | h <;> rw [h.2] at hdiv <;> omega

theorem inodewrite_stores_pair :
    WritesRight smallGeometry smallImage pairInode (fun k => BitVec.ofNat 8 k) 12 1020 10 :=
  (inodewrite_stores smallGeometry_sound smallImage_fits ⟨by decide, by decide⟩
    pairInode_covered).1 (.inl (by decide))

/-- A write of no bytes at offset 1 of an empty file gives it block 7. -/
theorem inodewrite_allocates : Covered smallGeometry smallImage emptyInode 1 0 ∧
    (smallImage.inodewrite emptyInode (fun _ => 0) 12 1 0).2.1.blocks 0 = 7 ∧
    ¬ WritesRight smallGeometry smallImage emptyInode (fun _ => 0) 12 1 0 := by
  have hzero : ∀ slot, (smallImage.blockmap emptyInode).roots slot = 0 := fun slot =>
    read_zeros fun _ _ _ => rfl
  have hcovered : Covered smallGeometry smallImage emptyInode 1 0 := by
    refine ⟨by omega, by omega, by omega, ?_, by decide, by decide⟩
    rintro t ⟨slot, -, ht⟩
    rw [hzero, Tables.tables_zero] at ht
    exact absurd ht List.not_mem_nil
  refine ⟨hcovered, by decide, ?_⟩
  refine writes_wrong smallGeometry_sound smallImage_fits smallImage_exact
    ⟨0, by decide, 7, by decide, by decide⟩ ⟨by decide, by decide⟩ hcovered
    ⟨by decide, by decide⟩ ?_
  rintro (h | h | h)
  · exact h rfl
  · exact absurd h (by decide)
  · exact absurd (show smallImage.inodegetblock emptyInode (1 / smallImage.blksize) = 0 by decide) h

end Lyre.Ext2

import Lyre.Fs.Ext2
import Lyre.Properties.Ext2Map

/-!
# Where the metadata of ext2 lies

The regions of an image that the allocators write: the superblock, and in each group the descriptor,
the two bitmaps and the inodes. In a sound layout they lie apart from each other, so that each of the
functions changes the regions that it writes and no other byte. What is found in a region is
`fs.region`; a write of one region is read back there and nowhere else (`region_put`).
-/

namespace Lyre.Ext2

open Infra.Bytes

/-- The numbers of an image that do not change. -/
structure Geometry where
  groups : Nat
  blksize : Nat
  sectorsize : Nat
  shift : Nat
  blockcnt : Nat
  blockspergroup : Nat
  inodespergroup : Nat
  first : Nat
  inodesize : Nat
  blockbmp : Nat → Nat
  inodebmp : Nat → Nat
  inodetable : Nat → Nat

/-- A region. The `k`-th inode of a group is counted from 0 on. -/
inductive Region where
  | super
  | desc (g : Nat)
  | blockbmp (g : Nat)
  | inodebmp (g : Nat)
  | inode (g k : Nat)
  deriving DecidableEq

namespace Geometry

variable (G : Geometry)

def start : Region → Nat
  | .super => G.sectorsize * 2
  | .desc g => (if 2048 ≤ G.blksize then G.blksize else G.blksize * 2) + BlockGroupDesc.size * g
  | .blockbmp g => G.blockbmp g * G.blksize
  | .inodebmp g => G.inodebmp g * G.blksize
  | .inode g k => G.inodetable g * G.blksize + G.inodesize * k

def length : Region → Nat
  | .super => Superblock.size
  | .desc _ => BlockGroupDesc.size
  | .blockbmp _ => G.blksize
  | .inodebmp _ => G.blksize
  | .inode _ _ => Inode.size

def Valid : Region → Prop
  | .super => True
  | .desc g => g < G.groups
  | .blockbmp g => g < G.groups
  | .inodebmp g => g < G.groups
  | .inode g k => g < G.groups ∧ k < G.inodespergroup

/-- The address is in no region. -/
def Outside (x : Nat) : Prop := ∀ r, G.Valid r → ¬ (G.start r ≤ x ∧ x < G.start r + G.length r)

/-- No byte of the block is in a region. -/
def DataBlock (t : Nat) : Prop := ∀ x, x / G.blksize = t → G.Outside x

/-- The number of an inode of the image. -/
def IsInode (inodeidx : Nat) : Prop := 0 < inodeidx ∧ inodeidx ≤ G.groups * G.inodespergroup

/-- The region of an inode. -/
def inodeRegion (inodeidx : Nat) : Region :=
  .inode ((inodeidx - 1) / G.inodespergroup) ((inodeidx - 1) % G.inodespergroup)

/-- The regions lie apart from each other, and a bitmap is large enough for its group. -/
structure Sound : Prop where
  apart : ∀ r r', G.Valid r → G.Valid r' → r ≠ r' →
    Apart (G.start r) (G.length r) (G.start r') (G.length r')
  groups : G.groups ≤ G.blockcnt
  blockspergroup : 0 < G.blockspergroup ∧ G.blockspergroup ≤ 8 * G.blksize
  inodespergroup : 0 < G.inodespergroup ∧ G.inodespergroup ≤ 8 * G.blksize
  blocks : G.blockcnt < 2 ^ 32
  inodes : G.groups * G.inodespergroup < 2 ^ 32

end Geometry

/-- An image with this geometry. -/
structure Fits (G : Geometry) (fs : Ext2fs) : Prop where
  mounted : fs.Mounted
  blksize : fs.blksize = G.blksize
  sectorsize : fs.sectorsize = G.sectorsize
  shift : fs.sb.blksize = G.shift
  blockcnt : fs.sb.blockcnt = G.blockcnt
  blockspergroup : fs.sb.blockspergroup = G.blockspergroup
  inodespergroup : fs.sb.inodespergroup = G.inodespergroup
  first : fs.sb.first = G.first
  inodesize : fs.sb.inodesize = G.inodesize
  desc : ∀ g < G.groups, (fs.bgdreadentry g).addrblockbmp = G.blockbmp g ∧
    (fs.bgdreadentry g).addrinodebmp = G.inodebmp g ∧ (fs.bgdreadentry g).inodetable = G.inodetable g

theorem index_inj {n g g' i j : Nat} (hi : i < n) (hj : j < n) (h : g * n + i = g' * n + j) :
    g = g' ∧ i = j := by
  have hdiv := congrArg (· / n) h
  have hmod := congrArg (· % n) h
  simp only [Nat.mul_comm _ n, Nat.mul_add_div (show 0 < n by omega), Nat.div_eq_of_lt hi,
    Nat.div_eq_of_lt hj, Nat.add_zero] at hdiv
  simp only [Nat.mul_comm _ n, Nat.mul_add_mod, Nat.mod_eq_of_lt hi, Nat.mod_eq_of_lt hj] at hmod
  exact ⟨hdiv, hmod⟩

/-- The bytes of a region. -/
def Ext2fs.region (fs : Ext2fs) (G : Geometry) (r : Region) : Mem := fun k => fs.device (G.start r + k)

variable {G : Geometry} {fs fs' : Ext2fs} {inode : Inode} {g i k t inodeidx : Nat} {r r' : Region}
  {m : Mem} {f : Nat → BitVec 8}

/-! ## Regions -/

theorem region_put_self (hk : k < G.length r) :
    put m (G.start r) (G.length r) f (G.start r + k) = f k := put_at m (G.start r) f hk

theorem region_put_of_ne (hG : G.Sound) (hr : G.Valid r) (hr' : G.Valid r') (hne : r ≠ r')
    (hk : k < G.length r') :
    put m (G.start r) (G.length r) f (G.start r' + k) = m (G.start r' + k) := by
  refine put_sameOff _ _ _ _ _ ?_
  have := hG.apart r r' hr hr' hne
  unfold Apart at this
  omega

theorem region_put_outside {x : Nat} (hr : G.Valid r) (hx : G.Outside x) :
    put m (G.start r) (G.length r) f x = m x := put_sameOff _ _ _ _ _ (hx r hr)

theorem region_put (hG : G.Sound) (hr : G.Valid r) (hr' : G.Valid r') (hk : k < G.length r') :
    put m (G.start r) (G.length r) f (G.start r' + k) =
      if r' = r then f k else m (G.start r' + k) := by
  split_ifs with heq
  · subst heq
    exact region_put_self hk
  · exact region_put_of_ne hG hr hr' (Ne.symm heq) hk

/-! ## The structures -/

theorem field_congr {raw raw' : Mem} {a n size : Nat} (h : ∀ k < size, raw' k = raw k)
    (ha : a + n ≤ size) : read raw' a n = read raw a n :=
  read_congr fun x _ hx => h x (by omega)

/-- The fields of the superblock that the allocators do not write. -/
structure Superblock.SameStatic (sb sb' : Superblock) : Prop where
  blockcnt : sb'.blockcnt = sb.blockcnt
  blksize : sb'.blksize = sb.blksize
  blockspergroup : sb'.blockspergroup = sb.blockspergroup
  inodespergroup : sb'.inodespergroup = sb.inodespergroup
  first : sb'.first = sb.first
  inodesize : sb'.inodesize = sb.inodesize

theorem Superblock.sameStatic_write (sb : Superblock) (a v : Nat) (ha : 12 ≤ a ∧ a ≤ 16) :
    sb.SameStatic ⟨write sb.raw a 4 v⟩ := by
  have hfield : ∀ b n, (b + n ≤ 12 ∨ 20 ≤ b) → read (write sb.raw a 4 v) b n = read sb.raw b n :=
    fun b n hb => read_sameOff (write_sameOff _ _ _ _) (by unfold Apart; omega)
  exact ⟨hfield 4 4 (by omega), hfield 24 4 (by omega), hfield 32 4 (by omega),
    hfield 40 4 (by omega), hfield 84 4 (by omega), hfield 88 2 (by omega)⟩

theorem Superblock.setUnallocb_static (sb : Superblock) (v : Nat) :
    sb.SameStatic (sb.setUnallocb v) := sb.sameStatic_write 12 v (by omega)

theorem Superblock.setUnalloci_static (sb : Superblock) (v : Nat) :
    sb.SameStatic (sb.setUnalloci v) := sb.sameStatic_write 16 v (by omega)

@[simp] theorem Superblock.setUnallocb_unallocb (sb : Superblock) (v : Nat) :
    (sb.setUnallocb v).unallocb = u32 v := read_write _ _ _ _

@[simp] theorem Superblock.setUnallocb_unalloci (sb : Superblock) (v : Nat) :
    (sb.setUnallocb v).unalloci = sb.unalloci :=
  read_sameOff (write_sameOff _ _ _ _) (by unfold Apart; omega)

@[simp] theorem Superblock.setUnalloci_unalloci (sb : Superblock) (v : Nat) :
    (sb.setUnalloci v).unalloci = u32 v := read_write _ _ _ _

@[simp] theorem Superblock.setUnalloci_unallocb (sb : Superblock) (v : Nat) :
    (sb.setUnalloci v).unallocb = sb.unallocb :=
  read_sameOff (write_sameOff _ _ _ _) (by unfold Apart; omega)

theorem Superblock.unallocb_lt (sb : Superblock) : sb.unallocb < 2 ^ 32 := read_lt _ 4 _

theorem Superblock.unalloci_lt (sb : Superblock) : sb.unalloci < 2 ^ 32 := read_lt _ 4 _

namespace BlockGroupDesc

variable (bgd : BlockGroupDesc) (v : Nat)

theorem unallocb_lt : bgd.unallocb < 2 ^ 16 := read_lt _ 2 _

theorem unalloci_lt : bgd.unalloci < 2 ^ 16 := read_lt _ 2 _

theorem field_write {a b n : Nat} (h : Apart a 2 b n) : read (write bgd.raw a 2 v) b n = read bgd.raw b n :=
  read_sameOff (write_sameOff _ _ _ _) h

@[simp] theorem setUnallocb_unallocb : (bgd.setUnallocb v).unallocb = v % 2 ^ 16 := read_write _ _ _ _

@[simp] theorem setUnalloci_unalloci : (bgd.setUnalloci v).unalloci = v % 2 ^ 16 := read_write _ _ _ _

@[simp] theorem setUnallocb_unalloci : (bgd.setUnallocb v).unalloci = bgd.unalloci :=
  bgd.field_write v (by unfold Apart; omega)

@[simp] theorem setUnalloci_unallocb : (bgd.setUnalloci v).unallocb = bgd.unallocb :=
  bgd.field_write v (by unfold Apart; omega)

@[simp] theorem setUnallocb_addrblockbmp : (bgd.setUnallocb v).addrblockbmp = bgd.addrblockbmp :=
  bgd.field_write v (by unfold Apart; omega)

@[simp] theorem setUnallocb_addrinodebmp : (bgd.setUnallocb v).addrinodebmp = bgd.addrinodebmp :=
  bgd.field_write v (by unfold Apart; omega)

@[simp] theorem setUnallocb_inodetable : (bgd.setUnallocb v).inodetable = bgd.inodetable :=
  bgd.field_write v (by unfold Apart; omega)

@[simp] theorem setUnalloci_addrblockbmp : (bgd.setUnalloci v).addrblockbmp = bgd.addrblockbmp :=
  bgd.field_write v (by unfold Apart; omega)

@[simp] theorem setUnalloci_addrinodebmp : (bgd.setUnalloci v).addrinodebmp = bgd.addrinodebmp :=
  bgd.field_write v (by unfold Apart; omega)

@[simp] theorem setUnalloci_inodetable : (bgd.setUnalloci v).inodetable = bgd.inodetable :=
  bgd.field_write v (by unfold Apart; omega)

end BlockGroupDesc

/-! ## Writes of regions -/

/-- One region is written. -/
def Ext2fs.writeregion (fs : Ext2fs) (G : Geometry) (r : Region) (f : Mem) : Ext2fs :=
  { fs with device := put fs.device (G.start r) (G.length r) f }

theorem writeregion_region (hG : G.Sound) (hr : G.Valid r) (hr' : G.Valid r') (hk : k < G.length r') :
    (fs.writeregion G r m).region G r' k = if r' = r then m k else fs.region G r' k :=
  region_put hG hr hr' hk

theorem writeregion_outside {x : Nat} (hr : G.Valid r) (hx : G.Outside x) :
    (fs.writeregion G r m).device x = fs.device x := region_put_outside hr hx

theorem put_comm {a b n k : Nat} {h : Nat → BitVec 8} (hap : Apart a n b k) :
    put (put m a n f) b k h = put (put m b k h) a n f := by
  funext x
  unfold Apart at hap
  unfold put
  split_ifs <;> first | rfl | omega

theorem writeregion_comm {m' : Mem} (hG : G.Sound) (hr : G.Valid r) (hr' : G.Valid r') (hne : r ≠ r') :
    (fs.writeregion G r m).writeregion G r' m' = (fs.writeregion G r' m').writeregion G r m := by
  have hcomm := put_comm (m := fs.device) (f := m) (h := m') (hG.apart r r' hr hr' hne)
  simp only [Ext2fs.writeregion, hcomm]

@[simp] theorem writeregion_sb : (fs.writeregion G r m).sb = fs.sb := rfl
@[simp] theorem writeregion_blksize : (fs.writeregion G r m).blksize = fs.blksize := rfl
@[simp] theorem writeregion_sectorsize : (fs.writeregion G r m).sectorsize = fs.sectorsize := rfl

namespace Fits

theorem bgdoffset (h : Fits G fs) (g : Nat) : fs.bgdoffset g = G.start (.desc g) := by
  rw [Ext2fs.bgdoffset, h.blksize]
  rfl

theorem bgdreadentry (h : Fits G fs) (g : Nat) : fs.bgdreadentry g = ⟨fs.region G (.desc g)⟩ := by
  rw [Ext2fs.bgdreadentry, h.bgdoffset]
  rfl

theorem readbitmap_block (h : Fits G fs) (g : Nat) :
    fs.readbitmap (G.blockbmp g) = fs.region G (.blockbmp g) := by
  unfold Ext2fs.readbitmap
  rw [h.blksize]
  rfl

theorem readbitmap_inode (h : Fits G fs) (g : Nat) :
    fs.readbitmap (G.inodebmp g) = fs.region G (.inodebmp g) := by
  unfold Ext2fs.readbitmap
  rw [h.blksize]
  rfl

theorem writebitmap_block (h : Fits G fs) (g : Nat) (bitmap : Bitmap) :
    fs.writebitmap (G.blockbmp g) bitmap = fs.writeregion G (.blockbmp g) bitmap := by
  simp only [Ext2fs.writeregion, Geometry.start, Geometry.length, ← h.blksize]
  rfl

theorem writebitmap_inode (h : Fits G fs) (g : Nat) (bitmap : Bitmap) :
    fs.writebitmap (G.inodebmp g) bitmap = fs.writeregion G (.inodebmp g) bitmap := by
  simp only [Ext2fs.writeregion, Geometry.start, Geometry.length, ← h.blksize]
  rfl

theorem bgdwriteentry (h : Fits G fs) (bgd : BlockGroupDesc) (g : Nat) :
    fs.bgdwriteentry bgd g = fs.writeregion G (.desc g) bgd.raw := by
  rw [Ext2fs.bgdwriteentry, h.bgdoffset]
  rfl

theorem writesuperblock (h : Fits G fs) :
    fs.writesuperblock = fs.writeregion G .super fs.sb.raw := by
  simp only [Ext2fs.writeregion, Geometry.start, Geometry.length, ← h.sectorsize]
  rfl

theorem inodeidx_pred (hG : G.Sound) (hidx : G.IsInode inodeidx) :
    u32 (inodeidx + (2 ^ 32 - 1)) = inodeidx - 1 := by
  have := hidx.1
  have := hidx.2
  have := hG.inodes
  unfold u32
  omega

theorem valid_inode (hG : G.Sound) (hidx : G.IsInode inodeidx) : G.Valid (G.inodeRegion inodeidx) := by
  refine ⟨?_, Nat.mod_lt _ hG.inodespergroup.1⟩
  rw [Nat.div_lt_iff_lt_mul hG.inodespergroup.1]
  have := hidx.1
  have := hidx.2
  omega

theorem inodeoffset (h : Fits G fs) (hG : G.Sound) (hidx : G.IsInode inodeidx) :
    fs.inodeoffset inodeidx = G.start (G.inodeRegion inodeidx) := by
  have hgroup := (valid_inode hG hidx).1
  rw [Ext2fs.inodeoffset, h.inodespergroup, inodeidx_pred hG hidx, (h.desc _ hgroup).2.2, h.blksize,
    h.inodesize]
  rfl

theorem inodewriteentry (h : Fits G fs) (hG : G.Sound) (hidx : G.IsInode inodeidx) (inode : Inode) :
    fs.inodewriteentry inode inodeidx = fs.writeregion G (G.inodeRegion inodeidx) inode.raw := by
  rw [Ext2fs.inodewriteentry, h.inodeoffset hG hidx]
  rfl

theorem congr (h : Fits G fs) (hblk : fs'.blksize = fs.blksize) (hsec : fs'.sectorsize = fs.sectorsize)
    (hsb : fs.sb.SameStatic fs'.sb)
    (hdesc : ∀ g < G.groups, ∀ k < 12, fs'.region G (.desc g) k = fs.region G (.desc g) k) :
    Fits G fs' := by
  have hoff : ∀ g, fs'.bgdreadentry g = ⟨fs'.region G (.desc g)⟩ := by
    intro g
    rw [Ext2fs.bgdreadentry, Ext2fs.bgdoffset, hblk, h.blksize]
    rfl
  refine ⟨⟨by rw [hblk, hsb.blksize, h.mounted.blksize], by rw [hsb.blksize]; exact h.mounted.shift⟩,
    by rw [hblk, h.blksize], by rw [hsec, h.sectorsize], by rw [hsb.blksize, h.shift],
    by rw [hsb.blockcnt, h.blockcnt], by rw [hsb.blockspergroup, h.blockspergroup],
    by rw [hsb.inodespergroup, h.inodespergroup], by rw [hsb.first, h.first],
    by rw [hsb.inodesize, h.inodesize], fun g hg => ?_⟩
  have hfields := h.desc g hg
  rw [h.bgdreadentry] at hfields
  rw [hoff]
  refine ⟨?_, ?_, ?_⟩
  · exact (field_congr (hdesc g hg) (show 0 + 4 ≤ 12 by decide)).trans hfields.1
  · exact (field_congr (hdesc g hg) (show 4 + 4 ≤ 12 by decide)).trans hfields.2.1
  · exact (field_congr (hdesc g hg) (show 8 + 4 ≤ 12 by decide)).trans hfields.2.2

theorem withSb {sb : Superblock} (h : Fits G fs) (hsb : fs.sb.SameStatic sb) :
    Fits G { fs with sb := sb } := h.congr rfl rfl hsb fun _ _ _ _ => rfl

theorem rfl_static (sb : Superblock) : sb.SameStatic sb := ⟨rfl, rfl, rfl, rfl, rfl, rfl⟩

theorem writeregion (h : Fits G fs) (hG : G.Sound) (hr : G.Valid r)
    (hdesc : ∀ g, r = .desc g → ∀ k < 12, m k = fs.region G (.desc g) k) :
    Fits G (fs.writeregion G r m) := by
  refine h.congr rfl rfl (rfl_static _) fun g hg k hk => ?_
  rw [writeregion_region hG hr (show G.Valid (.desc g) from hg)
    (show k < 32 by omega)]
  split_ifs with heq
  · exact hdesc g heq.symm k hk
  · rfl

end Fits

/-! ## Words of blocks -/

theorem word_congr (h : Fits G fs) (h' : Fits G fs') (hi : i < G.blksize / 4)
    (hsame : ∀ x, x / G.blksize = t → fs'.device x = fs.device x) : fs'.word t i = fs.word t i := by
  rw [Ext2fs.word, Ext2fs.word, h.blksize, h'.blksize]
  refine read_congr fun x hx hx' => hsame x ?_
  exact Nat.div_eq_of_lt_le (by omega) (by rw [Nat.add_mul, Nat.one_mul]; omega)

end Lyre.Ext2

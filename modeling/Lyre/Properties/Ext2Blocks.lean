import Lyre.Infra.Holders
import Lyre.Infra.Run
import Lyre.Properties.Ext2Layout

/-!
# The free blocks of ext2

In every history of allocations and of frees of the blocks that were allocated, the counters of the
groups and of the superblock are the numbers of clear bits (`ExactBlocks`), each allocation sets a bit
that was clear and no other one, and no two blocks that are held are the same. What an allocation or a
free changes is said once (`BlockChange`), and exactness is kept by every such change.
-/

namespace Lyre.Ext2

open Infra Infra.Bytes Ext2fs

variable {G : Geometry} {fs fs' : Ext2fs} {inode : Inode} {g g' i j k b inodeidx left bit first : Nat}
  {bitmap bitmap' : Bitmap}

/-! ## The search -/

theorem byte_full_iff (b : BitVec 8) : b = 0xff ↔ ∀ k < 8, b.getLsbD k = true := by
  constructor
  · rintro rfl
    decide
  · intro h
    refine BitVec.eq_of_getLsbD_eq fun k hk => ?_
    have hall : ∀ k < 8, (0xff : BitVec 8).getLsbD k = true := by decide
    rw [h k hk, hall k hk]

theorem bitmap_byte_full_iff : bitmap j = 0xff ↔ ∀ k < 8, bitmapTest bitmap (k + j * 8) = true := by
  rw [byte_full_iff]
  have hbit : ∀ k < 8, bitmapTest bitmap (k + j * 8) = (bitmap j).getLsbD k := by
    intro k hk
    rw [bitmapTest_eq, show (k + j * 8) / 8 = j by omega, show (k + j * 8) % 8 = k by omega]
  constructor
  · intro h k hk
    rw [hbit k hk, h k hk]
  · intro h k hk
    rw [← hbit k hk, h k hk]

theorem bitmapTest_congr (h : bitmap' (i / 8) = bitmap (i / 8)) :
    bitmapTest bitmap' i = bitmapTest bitmap i := by
  rw [bitmapTest, bitmapTest, h]

/-- Bit `i` is the first one from `start` on that is clear. -/
structure FirstClear (bitmap : Bitmap) (start i : Nat) : Prop where
  le : start ≤ i
  clear : bitmapTest bitmap i = false
  before : ∀ c, start ≤ c → c < i → bitmapTest bitmap c = true

theorem exists_firstClear (h : bitmapTest bitmap i = false) : ∃ c ≤ i, FirstClear bitmap 0 c := by
  have hex : ∃ c, bitmapTest bitmap c = false := ⟨i, h⟩
  refine ⟨Nat.find hex, Nat.find_min' hex h, Nat.zero_le _, Nat.find_spec hex, fun c _ hc => ?_⟩
  exact Bool.not_eq_false _ |>.mp (Nat.find_min hex hc)

theorem FirstClear.mono {start start' : Nat} (h : FirstClear bitmap start i) (hle : start ≤ start')
    (hi : start' ≤ i) : FirstClear bitmap start' i :=
  ⟨hi, h.clear, fun c hc => h.before c (Nat.le_trans hle hc)⟩

theorem blockBits_eq (h : FirstClear bitmap (bit + j * 8) (b + j * 8)) (hb : b < bit + left) :
    blockBits first j bitmap left bit = (bitmapSet bitmap (b + j * 8), first + j * 8 + b) := by
  induction left generalizing bit with
  | zero =>
    have := h.le
    omega
  | succ left ih =>
    have hle := h.le
    rw [blockBits]
    rcases Nat.eq_or_lt_of_le (show bit ≤ b by omega) with rfl | hlt
    · rw [if_pos h.clear]
    · rw [if_neg (by rw [h.before _ (Nat.le_refl _) (by omega)]; decide)]
      exact ih (h.mono (by omega) (by omega)) (by omega)

theorem blockBytes_eq (h : FirstClear bitmap (j * 8) i) (hi : i < (j + left) * 8) (hne : first + i ≠ 0) :
    blockBytes first bitmap left j = (bitmapSet bitmap i, first + i) := by
  induction left generalizing j with
  | zero =>
    have := h.le
    omega
  | succ left ih =>
    have hle := h.le
    rw [blockBytes]
    by_cases hfull : bitmap j = 0xff
    · rw [if_pos hfull]
      have hset := bitmap_byte_full_iff.mp hfull
      have hbehind : (j + 1) * 8 ≤ i := by
        by_contra hin
        have := hset (i - j * 8) (by omega)
        rw [show i - j * 8 + j * 8 = i by omega, h.clear] at this
        exact absurd this (by decide)
      exact ih (h.mono (by omega) hbehind) (by omega)
    · rw [if_neg hfull]
      have hin : i < (j + 1) * 8 := by
        by_contra hbehind
        refine hfull (bitmap_byte_full_iff.mpr fun k hk => h.before _ (by omega) (by omega))
      obtain ⟨b, rfl⟩ : ∃ b, i = b + j * 8 := ⟨i - j * 8, by omega⟩
      have hbits := @blockBits_eq j b 8 0 first bitmap (h.mono (by omega) (by omega)) (by omega)
      simp only [hbits]
      rw [if_pos (by omega)]
      congr 1
      omega

/-! ## The bits and counters of an image -/

/-- Bit `i` of the block bitmap of a group. -/
def Ext2fs.blockbit (fs : Ext2fs) (G : Geometry) (g i : Nat) : Bool :=
  bitmapTest (fs.region G (.blockbmp g)) i

/-- Bit `i` of the inode bitmap. -/
def Ext2fs.inodebit (fs : Ext2fs) (G : Geometry) (g i : Nat) : Bool :=
  bitmapTest (fs.region G (.inodebmp g)) i

/-- The number of clear bits of a group. -/
def Ext2fs.freeBlocks (fs : Ext2fs) (G : Geometry) (g : Nat) : Nat :=
  tally (fun i => !fs.blockbit G g i) G.blockspergroup

/-- The counters are the numbers of clear bits; the padding behind the blocks of a group is set, and
so is the bit of block 0. -/
structure ExactBlocks (G : Geometry) (fs : Ext2fs) : Prop where
  group : ∀ g < G.groups, (fs.bgdreadentry g).unallocb = fs.freeBlocks G g
  total : fs.sb.unallocb = (Finset.range G.groups).sum (fs.freeBlocks G)
  padding : ∀ g < G.groups, ∀ i, G.blockspergroup ≤ i → i < 8 * G.blksize → fs.blockbit G g i = true
  zero : fs.blockbit G 0 0 = true

theorem block_div (hG : G.Sound) (hi : i < G.blockspergroup) :
    (g * G.blockspergroup + i) / G.blockspergroup = g := by
  rw [Nat.mul_comm, Nat.mul_add_div hG.blockspergroup.1, Nat.div_eq_of_lt hi, Nat.add_zero]

theorem block_mod (hi : i < G.blockspergroup) : (g * G.blockspergroup + i) % G.blockspergroup = i := by
  rw [Nat.mul_comm, Nat.mul_add_mod, Nat.mod_eq_of_lt hi]

theorem block_ne_zero (hG : G.Sound) (hx : ExactBlocks G fs) (hbit : fs.blockbit G g i = false) :
    g * G.blockspergroup + i ≠ 0 := by
  intro h0
  have hi : i = 0 := by omega
  have hg : g = 0 := by
    rcases Nat.eq_zero_or_pos g with h0' | hpos
    · exact h0'
    · have := Nat.mul_pos hpos hG.blockspergroup.1
      omega
  rw [hi, hg, hx.zero] at hbit
  exact absurd hbit (by decide)

/-- Bit `i` of group `g` becomes `b`, and the counters follow. -/
structure BlockChange (G : Geometry) (fs : Ext2fs) (g i : Nat) (b : Bool) (fs' : Ext2fs) : Prop where
  fits : Fits G fs'
  bit : ∀ g' < G.groups, ∀ j < 8 * G.blksize,
    fs'.blockbit G g' j = if g' = g ∧ j = i then b else fs.blockbit G g' j
  inodebit : ∀ g' < G.groups, ∀ j < 8 * G.blksize, fs'.inodebit G g' j = fs.inodebit G g' j
  group : (fs'.bgdreadentry g).unallocb =
    if b then (fs.bgdreadentry g).unallocb - 1 else ((fs.bgdreadentry g).unallocb + 1) % 2 ^ 16
  groups : ∀ g' < G.groups, g' ≠ g → (fs'.bgdreadentry g').unallocb = (fs.bgdreadentry g').unallocb
  total : fs'.sb.unallocb = if b then u32 (fs.sb.unallocb + (2 ^ 32 - 1)) else u32 (fs.sb.unallocb + 1)
  inodes : ∀ g' < G.groups, (fs'.bgdreadentry g').unalloci = (fs.bgdreadentry g').unalloci
  totali : fs'.sb.unalloci = fs.sb.unalloci
  /-- The superblock has been written back. -/
  super : ∀ k < Superblock.size, fs'.region G .super k = fs'.sb.raw k
  outside : ∀ x, G.Outside x → fs'.device x = fs.device x

/-! ## What the functions change -/

/-- The regions of an image behind writes of a bitmap, a descriptor and the superblock. -/
def Ext2fs.update (fs : Ext2fs) (G : Geometry) (sb : Superblock) (r : Region) (bitmap : Bitmap)
    (g : Nat) (bgd : BlockGroupDesc) : Ext2fs :=
  ((({ fs with sb := sb } : Ext2fs).writeregion G r bitmap).writeregion G (.desc g) bgd.raw).writeregion
    G .super sb.raw

theorem update_region {r r' : Region} {sb : Superblock} {bgd : BlockGroupDesc} (hG : G.Sound)
    (hr : G.Valid r) (hg : g < G.groups) (hr' : G.Valid r') (hk : k < G.length r') :
    (fs.update G sb r bitmap g bgd).region G r' k =
      if r' = .super then sb.raw k else if r' = .desc g then bgd.raw k
      else if r' = r then bitmap k else fs.region G r' k := by
  rw [Ext2fs.update, writeregion_region hG (show G.Valid .super from trivial) hr' hk,
    writeregion_region hG (show G.Valid (.desc g) from hg) hr' hk, writeregion_region hG hr hr' hk]
  rfl

theorem update_bit {r r' : Region} {sb : Superblock} {bgd : BlockGroupDesc} (hG : G.Sound)
    (hr : G.Valid r) (hg : g < G.groups) (hr' : G.Valid r') (hlen : G.length r' = G.blksize)
    (hsuper : r' ≠ .super) (hdesc : r' ≠ .desc g) (hj : j < 8 * G.blksize) :
    bitmapTest ((fs.update G sb r bitmap g bgd).region G r') j =
      if r' = r then bitmapTest bitmap j else bitmapTest (fs.region G r') j := by
  have hbyte : j / 8 < G.length r' := by omega
  have hthere := @update_region _ fs _ _ bitmap _ _ sb bgd hG hr hg hr' hbyte
  rw [if_neg hsuper, if_neg hdesc] at hthere
  split_ifs at hthere ⊢ with heq
  · exact bitmapTest_congr hthere
  · exact bitmapTest_congr hthere

theorem update_outside {r : Region} {sb : Superblock} {bgd : BlockGroupDesc} {x : Nat}
    (hr : G.Valid r) (hg : g < G.groups) (hx : G.Outside x) :
    (fs.update G sb r bitmap g bgd).device x = fs.device x := by
  rw [Ext2fs.update, writeregion_outside (show G.Valid .super from trivial) hx,
    writeregion_outside (show G.Valid (.desc g) from hg) hx, writeregion_outside hr hx]

theorem update_fits {r : Region} {sb : Superblock} {bgd : BlockGroupDesc} (hG : G.Sound)
    (h : Fits G fs) (hr : G.Valid r) (hne : ∀ g', r ≠ .desc g') (hg : g < G.groups)
    (hsb : fs.sb.SameStatic sb) (hbgd : ∀ k < 12, bgd.raw k = fs.region G (.desc g) k) :
    Fits G (fs.update G sb r bitmap g bgd) := by
  refine h.congr rfl rfl hsb fun g' hg' k hk => ?_
  rw [update_region hG hr hg (show G.Valid (.desc g') from hg') (show k < 32 by omega),
    if_neg nofun]
  split_ifs with heq heq'
  · obtain rfl : g' = g := Region.desc.inj heq
    exact hbgd k hk
  · exact absurd heq'.symm (hne g')
  · rfl

theorem update_desc {r : Region} {sb : Superblock} {bgd : BlockGroupDesc} (hG : G.Sound)
    (hr : G.Valid r) (hne : ∀ g', r ≠ .desc g') (hg : g < G.groups) (hg' : g' < G.groups) (hk : k < 32) :
    (fs.update G sb r bitmap g bgd).region G (.desc g') k =
      if g' = g then bgd.raw k else fs.region G (.desc g') k := by
  rw [update_region hG hr hg (show G.Valid (.desc g') from hg') hk, if_neg nofun]
  by_cases heq : g' = g
  · rw [if_pos (by rw [heq]), if_pos heq]
  · rw [if_neg (fun h => heq (Region.desc.inj h)), if_neg heq, if_neg (Ne.symm (hne g'))]

theorem update_counters {r : Region} {sb : Superblock} {bgd : BlockGroupDesc} (hG : G.Sound)
    (h : Fits G fs) (hfits : Fits G (fs.update G sb r bitmap g bgd)) (hr : G.Valid r)
    (hne : ∀ g', r ≠ .desc g') (hg : g < G.groups) (hg' : g' < G.groups) :
    ((fs.update G sb r bitmap g bgd).bgdreadentry g').unallocb =
        (if g' = g then bgd.unallocb else (fs.bgdreadentry g').unallocb) ∧
      ((fs.update G sb r bitmap g bgd).bgdreadentry g').unalloci =
        (if g' = g then bgd.unalloci else (fs.bgdreadentry g').unalloci) := by
  have hdesc : ∀ k < 32, _ := fun k hk =>
    @update_desc _ fs _ _ _ bitmap _ sb bgd hG hr hne hg hg' hk
  rw [hfits.bgdreadentry, h.bgdreadentry]
  split_ifs with heq
  · simp only [if_pos heq] at hdesc
    exact ⟨field_congr hdesc (by decide), field_congr hdesc (by decide)⟩
  · simp only [if_neg heq] at hdesc
    exact ⟨field_congr hdesc (by decide), field_congr hdesc (by decide)⟩

/-- A bit of a buffer becomes `b`. -/
def bitmapPut (bitmap : Bitmap) (i : Nat) (b : Bool) : Bitmap :=
  if b then bitmapSet bitmap i else bitmapReset bitmap i

theorem bitmapTest_put (b : Bool) :
    bitmapTest (bitmapPut bitmap i b) j = if j = i then b else bitmapTest bitmap j := by
  cases b with
  | true =>
    rw [bitmapPut, if_pos rfl, bitmapTest_bitmapSet]
    by_cases h : i = j
    · simp [h]
    · simp [h, Ne.symm h]
  | false =>
    simp only [bitmapPut, Bool.false_eq_true, if_false, bitmapTest_bitmapReset]
    by_cases h : i = j
    · simp [h]
    · simp [h, Ne.symm h]

theorem setUnallocb_raw {bgd : BlockGroupDesc} {v : Nat} (hk : k < 12) :
    (bgd.setUnallocb v).raw k = bgd.raw k := write_sameOff _ _ _ _ k (by omega)

theorem u32_u32 (n : Nat) : u32 (u32 n) = u32 n := Nat.mod_mod n (2 ^ 32)

/-- The count of free blocks behind a change of a bit. -/
def countAfter (b : Bool) (n : Nat) : Nat := if b then n - 1 else n + 1

theorem update_blockChange {b : Bool} {v n : Nat} {bgd : BlockGroupDesc} (hG : G.Sound) (h : Fits G fs)
    (hg : g < G.groups) (hbitmap : ∀ k < G.blksize, bitmap k = fs.region G (.blockbmp g) k)
    (hbgd : ∀ k < 32, bgd.raw k = fs.region G (.desc g) k)
    (hput : bitmap' = bitmapPut bitmap i b) (hn : n = countAfter b bgd.unallocb)
    (hv : u32 v = if b then u32 (fs.sb.unallocb + (2 ^ 32 - 1)) else u32 (fs.sb.unallocb + 1)) :
    BlockChange G fs g i b
      (fs.update G (fs.sb.setUnallocb v) (.blockbmp g) bitmap' g (bgd.setUnallocb n)) := by
  subst hput hn
  have hr : G.Valid (.blockbmp g) := hg
  have hfits : Fits G (fs.update G (fs.sb.setUnallocb v) (.blockbmp g) (bitmapPut bitmap i b) g
      (bgd.setUnallocb (countAfter b bgd.unallocb))) := by
    refine update_fits hG h hr nofun hg (fs.sb.setUnallocb_static v) fun k hk => ?_
    rw [setUnallocb_raw hk, hbgd k (by omega)]
  have hunallocb : bgd.unallocb = (fs.bgdreadentry g).unallocb := by
    rw [h.bgdreadentry]
    exact field_congr hbgd (by decide)
  have hunalloci : bgd.unalloci = (fs.bgdreadentry g).unalloci := by
    rw [h.bgdreadentry]
    exact field_congr hbgd (by decide)
  have hregion : ∀ {r' : Region} {k : Nat}, G.Valid r' → k < G.length r' → _ := fun {r'} {k} hr' hk =>
    @update_region _ fs _ k (bitmapPut bitmap i b) _ r' (fs.sb.setUnallocb v) (bgd.setUnallocb (countAfter b bgd.unallocb)) hG hr hg hr' hk
  refine ⟨hfits, fun g' hg' j hj => ?_, fun g' hg' j hj => ?_, ?_, fun g' hg' hne => ?_, ?_,
    fun g' hg' => ?_, by simp [Ext2fs.update], fun k hk => ?_, fun x hx => update_outside hr hg hx⟩
  · rw [Ext2fs.blockbit, update_bit hG hr hg (show G.Valid (.blockbmp g') from hg') rfl nofun nofun hj]
    by_cases heq : g' = g
    · subst heq
      rw [if_pos rfl, bitmapTest_put, bitmapTest_congr (hbitmap (j / 8) (by omega))]
      simp [Ext2fs.blockbit]
    · rw [if_neg fun h => heq (Region.blockbmp.inj h), if_neg fun h => heq h.1]
      rfl
  · rw [Ext2fs.inodebit, update_bit hG hr hg (show G.Valid (.inodebmp g') from hg') rfl nofun nofun hj,
      if_neg nofun]
    rfl
  · rw [(update_counters hG h hfits hr nofun hg hg).1, if_pos rfl,
      BlockGroupDesc.setUnallocb_unallocb, hunallocb]
    have := (fs.bgdreadentry g).unallocb_lt
    unfold countAfter
    split_ifs <;> omega
  · rw [(update_counters hG h hfits hr nofun hg hg').1, if_neg hne]
  · rw [← hv]
    exact Superblock.setUnallocb_unallocb _ v
  · rw [(update_counters hG h hfits hr nofun hg hg').2]
    split_ifs with heq
    · rw [heq, BlockGroupDesc.setUnallocb_unalloci, hunalloci]
    · rfl
  · rw [hregion (show G.Valid .super from trivial) hk, if_pos rfl]
    rfl

/-- The bitmaps and the counters are the same. -/
structure SameCounters (G : Geometry) (fs fs' : Ext2fs) : Prop where
  fits : Fits G fs'
  bit : ∀ g < G.groups, ∀ j < 8 * G.blksize, fs'.blockbit G g j = fs.blockbit G g j
  inodebit : ∀ g < G.groups, ∀ j < 8 * G.blksize, fs'.inodebit G g j = fs.inodebit G g j
  group : ∀ g < G.groups, (fs'.bgdreadentry g).unallocb = (fs.bgdreadentry g).unallocb
  inodes : ∀ g < G.groups, (fs'.bgdreadentry g).unalloci = (fs.bgdreadentry g).unalloci
  sb : fs'.sb = fs.sb
  outside : ∀ x, G.Outside x → fs'.device x = fs.device x

theorem SameCounters.of_regions (h : Fits G fs) (h' : Fits G fs') (hsb : fs'.sb = fs.sb)
    (hregion : ∀ r k, G.Valid r → k < G.length r → (∀ g n, r ≠ .inode g n) →
      fs'.region G r k = fs.region G r k)
    (hout : ∀ x, G.Outside x → fs'.device x = fs.device x) : SameCounters G fs fs' := by
  have hdesc : ∀ g < G.groups, ∀ k < 32, fs'.region G (.desc g) k = fs.region G (.desc g) k :=
    fun g hg k hk => hregion (.desc g) k hg hk nofun
  refine ⟨h', fun g hg j hj => ?_, fun g hg j hj => ?_, fun g hg => ?_, fun g hg => ?_, hsb, hout⟩
  · exact bitmapTest_congr (hregion (.blockbmp g) (j / 8) hg (show j / 8 < G.blksize by omega) nofun)
  · exact bitmapTest_congr (hregion (.inodebmp g) (j / 8) hg (show j / 8 < G.blksize by omega) nofun)
  · rw [h'.bgdreadentry, h.bgdreadentry]
    exact field_congr (hdesc g hg) (by decide)
  · rw [h'.bgdreadentry, h.bgdreadentry]
    exact field_congr (hdesc g hg) (by decide)

theorem writeinode_same {m : Mem} (hG : G.Sound) (h : Fits G fs) (hidx : G.IsInode inodeidx) :
    SameCounters G fs (fs.writeregion G (G.inodeRegion inodeidx) m) := by
  have hvalid := Fits.valid_inode hG hidx
  refine SameCounters.of_regions h (h.writeregion hG hvalid nofun) rfl
    (fun r k hr hk hne => ?_) fun x hx => writeregion_outside hvalid hx
  rw [writeregion_region hG hvalid hr hk]
  exact if_neg (hne _ _)

theorem BlockChange.of_same {b : Bool} {fs₁ : Ext2fs} (hg : g < G.groups) (hsame : SameCounters G fs fs₁)
    (h : BlockChange G fs₁ g i b fs') : BlockChange G fs g i b fs' := by
  refine { h with
    bit := fun g' hg' j hj => ?_, inodebit := fun g' hg' j hj => ?_, group := ?_,
    groups := fun g' hg' hne => ?_, total := ?_, inodes := fun g' hg' => ?_, totali := ?_,
    outside := fun x hx => ?_ }
  · rw [h.bit g' hg' j hj, hsame.bit g' hg' j hj]
  · rw [h.inodebit g' hg' j hj, hsame.inodebit g' hg' j hj]
  · rw [h.group, hsame.group g hg]
  · rw [h.groups g' hg' hne, hsame.group g' hg']
  · rw [h.total, hsame.sb]
  · rw [h.inodes g' hg', hsame.inodes g' hg']
  · rw [h.totali, hsame.sb]
  · rw [h.outside x hx, hsame.outside x hx]

/-- The inode behind an allocation. -/
def Ext2fs.charged (fs : Ext2fs) (inode : Inode) : Inode :=
  inode.setSectors (u32 (inode.sectors + fs.blksize / fs.sectorsize))

theorem takeblock_eq (hG : G.Sound) (h : Fits G fs) (hidx : G.IsInode inodeidx) (hg : g < G.groups) :
    fs.takeblock bitmap inode inodeidx g =
      ((fs.writeregion G (G.inodeRegion inodeidx) (fs.charged inode).raw).update G
        (fs.sb.setUnallocb (u32 (fs.sb.unallocb + (2 ^ 32 - 1)))) (.blockbmp g) bitmap g
        ((fs.bgdreadentry g).setUnallocb ((fs.bgdreadentry g).unallocb - 1)), fs.charged inode) := by
  have hvalid := Fits.valid_inode hG hidx
  have hr : G.Valid (.blockbmp g) := hg
  have h₁ := h.writeregion (m := bitmap) hG hr nofun
  have h₂ := h₁.withSb (fs.sb.setUnallocb_static (u32 (fs.sb.unallocb + (2 ^ 32 - 1))))
  have h₃ := h₂.writeregion (m := (fs.charged inode).raw) hG hvalid nofun
  have hcomm := @writeregion_comm _ { fs with sb := fs.sb.setUnallocb (u32 (fs.sb.unallocb + (2 ^ 32 - 1))) } _ _ bitmap ((fs.charged inode).raw) hG hr hvalid nofun
  have h₄ := h₃.writeregion
    (m := ((fs.bgdreadentry g).setUnallocb ((fs.bgdreadentry g).unallocb - 1)).raw) hG
    (show G.Valid (.desc g) from hg) fun g' heq k hk => by
      obtain rfl : g = g' := Region.desc.inj heq
      rw [setUnallocb_raw hk, h.bgdreadentry, writeregion_region hG hvalid
        (show G.Valid (.desc g) from hg) (show k < 32 by omega), if_neg nofun]
      exact (writeregion_region hG hr (show G.Valid (.desc g) from hg)
        (show k < 32 by omega)).symm
  have hinode := h₂.inodewriteentry hG hidx (fs.charged inode)
  have hbgd := h₃.bgdwriteentry ((fs.bgdreadentry g).setUnallocb ((fs.bgdreadentry g).unallocb - 1)) g
  rw [Ext2fs.takeblock, (h.desc g hg).1, h.writebitmap_block]
  change ((((_ : Ext2fs).inodewriteentry (fs.charged inode) inodeidx).bgdwriteentry _ g).writesuperblock,
    fs.charged inode) = _
  rw [writeregion_sb, hinode, hbgd, h₄.writesuperblock, Ext2fs.update]
  exact Prod.ext (congrArg (fun fs' : Ext2fs => (fs'.writeregion G (.desc g) _).writeregion G .super _)
    hcomm) rfl

theorem freeblock_eq (hG : G.Sound) (h : Fits G fs) (hg : g < G.groups) (hi : i < G.blockspergroup) :
    fs.freeblock (g * G.blockspergroup + i) =
      fs.update G (fs.sb.setUnallocb (fs.sb.unallocb + 1)) (.blockbmp g)
        (bitmapReset (fs.region G (.blockbmp g)) i) g
        ((fs.bgdreadentry g).setUnallocb ((fs.bgdreadentry g).unallocb + 1)) := by
  have hr : G.Valid (.blockbmp g) := hg
  have hu32 : u32 g = g := by
    have := hG.groups
    have := hG.blocks
    exact Nat.mod_eq_of_lt (by omega)
  have h₁ := h.writeregion (m := bitmapReset (fs.region G (.blockbmp g)) i) hG hr nofun
  have h₂ := h₁.withSb (fs.sb.setUnallocb_static (fs.sb.unallocb + 1))
  have h₃ := h₂.writeregion
    (m := ((fs.bgdreadentry g).setUnallocb ((fs.bgdreadentry g).unallocb + 1)).raw) hG
    (show G.Valid (.desc g) from hg) fun g' heq k hk => by
      obtain rfl : g = g' := Region.desc.inj heq
      rw [setUnallocb_raw hk, h.bgdreadentry]
      exact (writeregion_region hG hr (show G.Valid (.desc g) from hg)
        (show k < 32 by omega)).symm
  have hbgd := h₂.bgdwriteentry ((fs.bgdreadentry g).setUnallocb ((fs.bgdreadentry g).unallocb + 1)) g
  rw [Ext2fs.freeblock, h.blockspergroup, block_div hG hi, block_mod hi, hu32, (h.desc g hg).1, h.readbitmap_block,
    h.writebitmap_block]
  change ((_ : Ext2fs).bgdwriteentry _ g).writesuperblock = _
  rw [writeregion_sb, hbgd, h₃.writesuperblock]
  rfl

theorem takeblock_change (hG : G.Sound) (h : Fits G fs) (hidx : G.IsInode inodeidx)
    (hg : g < G.groups) (i : Nat) : BlockChange G fs g i true
      (fs.takeblock (bitmapSet (fs.region G (.blockbmp g)) i) inode inodeidx g).1 := by
  have hvalid := Fits.valid_inode hG hidx
  rw [takeblock_eq hG h hidx hg]
  refine BlockChange.of_same hg (writeinode_same (m := (fs.charged inode).raw) hG h hidx) ?_
  refine @update_blockChange _ _ _ _ (fs.region G (.blockbmp g)) _ _ _ _ _ hG (h.writeregion hG hvalid nofun) hg
    (fun k hk => ?_) (fun k hk => ?_) (if_pos rfl).symm (if_pos rfl).symm ?_
  · exact (writeregion_region hG hvalid (show G.Valid (.blockbmp g) from hg) hk).symm
  · rw [writeregion_region hG hvalid (show G.Valid (.desc g) from hg) hk, if_neg nofun,
      h.bgdreadentry]
  · rw [if_pos rfl, u32_u32, writeregion_sb]

theorem freeblock_change (hG : G.Sound) (h : Fits G fs) (hg : g < G.groups)
    (hi : i < G.blockspergroup) :
    BlockChange G fs g i false (fs.freeblock (g * G.blockspergroup + i)) := by
  rw [freeblock_eq hG h hg hi]
  exact @update_blockChange _ _ _ _ (fs.region G (.blockbmp g)) _ _ _ _ _ hG h hg (fun k _ => rfl)
    (fun k _ => by rw [h.bgdreadentry]) (by simp [bitmapPut]) (by simp [countAfter]) (by simp)

/-! ## Counters -/

namespace BlockChange

variable {b : Bool}

theorem freeBlocks_of_ne (h : BlockChange G fs g i b fs') (hG : G.Sound) (hg' : g' < G.groups)
    (hne : g' ≠ g) : fs'.freeBlocks G g' = fs.freeBlocks G g' := by
  refine tally_congr fun j hj => ?_
  have := hG.blockspergroup.2
  rw [h.bit g' hg' j (by omega), if_neg fun heq => hne heq.1]

theorem freeBlocks_set (h : BlockChange G fs g i true fs') (hG : G.Sound) (hg : g < G.groups)
    (hi : i < G.blockspergroup) (hbit : fs.blockbit G g i = false) :
    fs'.freeBlocks G g + 1 = fs.freeBlocks G g := by
  have := hG.blockspergroup.2
  refine tally_clear hi (by rw [hbit]; rfl) ?_ fun j hj hne => ?_
  · rw [h.bit g hg i (by omega), if_pos ⟨rfl, rfl⟩]
    rfl
  · rw [h.bit g hg j (by omega), if_neg fun heq => hne heq.2]

theorem freeBlocks_reset (h : BlockChange G fs g i false fs') (hG : G.Sound) (hg : g < G.groups)
    (hi : i < G.blockspergroup) (hbit : fs.blockbit G g i = true) :
    fs.freeBlocks G g + 1 = fs'.freeBlocks G g := by
  have := hG.blockspergroup.2
  refine tally_clear hi ?_ (by rw [hbit]; rfl) fun j hj hne => ?_
  · rw [h.bit g hg i (by omega), if_pos ⟨rfl, rfl⟩]
    rfl
  · rw [h.bit g hg j (by omega), if_neg fun heq => hne heq.2]

theorem sum_freeBlocks (h : BlockChange G fs g i b fs') (hG : G.Sound) (hg : g < G.groups) :
    (Finset.range G.groups).sum (fs'.freeBlocks G) + fs.freeBlocks G g =
      (Finset.range G.groups).sum (fs.freeBlocks G) + fs'.freeBlocks G g :=
  sum_range_change hg fun _ hg' hne => h.freeBlocks_of_ne hG hg' hne

theorem exact_set (h : BlockChange G fs g i true fs') (hG : G.Sound) (hx : ExactBlocks G fs)
    (hg : g < G.groups) (hi : i < G.blockspergroup) (hbit : fs.blockbit G g i = false) :
    ExactBlocks G fs' := by
  have hset := h.freeBlocks_set hG hg hi hbit
  have hsum := h.sum_freeBlocks hG hg
  have hsize := hG.blockspergroup.2
  have htotal : fs.sb.unallocb < 2 ^ 32 := fs.sb.unallocb_lt
  have hin : 0 < G.groups := by omega
  refine ⟨fun g' hg' => ?_, ?_, fun g' hg' j hj hj' => ?_, ?_⟩
  · by_cases heq : g' = g
    · subst heq
      rw [h.group, if_pos rfl, hx.group g' hg]
      omega
    · rw [h.groups g' hg' heq, hx.group g' hg', h.freeBlocks_of_ne hG hg' heq]
  · rw [h.total, if_pos rfl, hx.total]
    rw [hx.total] at htotal
    unfold u32
    omega
  · rw [h.bit g' hg' j hj']
    split_ifs
    · rfl
    · exact hx.padding g' hg' j hj hj'
  · rw [h.bit 0 hin 0 (by omega)]
    split_ifs
    · rfl
    · exact hx.zero

/-- Exactness is kept by a bit that is cleared, if the counters can hold the numbers. -/
theorem exact_reset (h : BlockChange G fs g i false fs') (hG : G.Sound) (hx : ExactBlocks G fs)
    (hg : g < G.groups) (hi : i < G.blockspergroup) (hbit : fs.blockbit G g i = true)
    (hne : ¬ (g = 0 ∧ i = 0)) (hfew : fs.freeBlocks G g + 1 < 2 ^ 16)
    (hfew' : (Finset.range G.groups).sum (fs.freeBlocks G) + 1 < 2 ^ 32) : ExactBlocks G fs' := by
  have hreset := h.freeBlocks_reset hG hg hi hbit
  have hsum := h.sum_freeBlocks hG hg
  have hsize := hG.blockspergroup.2
  have hin : 0 < G.groups := by omega
  refine ⟨fun g' hg' => ?_, ?_, fun g' hg' j hj hj' => ?_, ?_⟩
  · by_cases heq : g' = g
    · subst heq
      rw [h.group, hx.group g' hg]
      simp only [Bool.false_eq_true, if_false]
      omega
    · rw [h.groups g' hg' heq, hx.group g' hg', h.freeBlocks_of_ne hG hg' heq]
  · rw [h.total, hx.total]
    simp only [Bool.false_eq_true, if_false]
    unfold u32
    omega
  · rw [h.bit g' hg' j hj', if_neg (by omega)]
    exact hx.padding g' hg' j hj hj'
  · rw [h.bit 0 hin 0 (by omega), if_neg (by omega)]
    exact hx.zero

end BlockChange

/-! ## Allocation -/

/-- Some block is free. -/
def Ext2fs.SomeFree (fs : Ext2fs) (G : Geometry) : Prop :=
  ∃ g < G.groups, ∃ i < G.blockspergroup, fs.blockbit G g i = false

theorem allocblockLoop_eq (hG : G.Sound) (h : Fits G fs) (hx : ExactBlocks G fs) (hg : g < G.groups)
    (hi : i < G.blockspergroup) (hfirst : FirstClear (fs.region G (.blockbmp g)) 0 i)
    (hbefore : ∀ g' < g, (fs.bgdreadentry g').unallocb = 0) (hjg : j ≤ g) (hleft : g < j + left) :
    allocblockLoop fs inode inodeidx left j =
      ((fs.takeblock (bitmapSet (fs.region G (.blockbmp g)) i) inode inodeidx g).1,
        (fs.takeblock (bitmapSet (fs.region G (.blockbmp g)) i) inode inodeidx g).2,
        g * G.blockspergroup + i) := by
  induction left generalizing j with
  | zero => omega
  | succ left ih =>
    rw [allocblockLoop]
    rcases Nat.eq_or_lt_of_le hjg with rfl | hlt
    · have hbit : fs.blockbit G j i = false := hfirst.clear
      have hsize := hG.blockspergroup.2
      have hcount : (fs.bgdreadentry j).unallocb ≠ 0 := by
        rw [hx.group j hg]
        have := tally_pos (p := fun i => !fs.blockbit G j i) hi (by rw [hbit]; rfl)
        unfold Ext2fs.freeBlocks
        omega
      have hne := block_ne_zero hG hx hbit
      have hfound := @blockBytes_eq _ 0 G.blksize (j * G.blockspergroup) _
        (hfirst.mono (Nat.zero_le _) (by omega)) (by omega) hne
      simp only [if_neg hcount, (h.desc j hg).1, h.readbitmap_block, h.blockspergroup, h.blksize,
        hfound, if_neg hne]
    · simp only [if_pos (hbefore j hlt)]
      exact ih (by omega) (by omega)

theorem allocblock_takes (hG : G.Sound) (h : Fits G fs) (hx : ExactBlocks G fs)
    (hfree : fs.SomeFree G) : ∃ g < G.groups, ∃ i < G.blockspergroup, fs.blockbit G g i = false ∧
      ∀ inode inodeidx, fs.allocblock inode inodeidx =
        ((fs.takeblock (bitmapSet (fs.region G (.blockbmp g)) i) inode inodeidx g).1,
          (fs.takeblock (bitmapSet (fs.region G (.blockbmp g)) i) inode inodeidx g).2,
          g * G.blockspergroup + i) := by
  obtain ⟨g₀, hg₀, i₀, hi₀, hbit₀⟩ := hfree
  have hpos₀ : (fs.bgdreadentry g₀).unallocb ≠ 0 := by
    rw [hx.group g₀ hg₀]
    have := tally_pos (p := fun i => !fs.blockbit G g₀ i) hi₀ (by rw [hbit₀]; rfl)
    unfold Ext2fs.freeBlocks
    omega
  have hex : ∃ g, (fs.bgdreadentry g).unallocb ≠ 0 := ⟨g₀, hpos₀⟩
  have hle := Nat.find_min' hex hpos₀
  have hg : Nat.find hex < G.groups := by omega
  have hpos := Nat.find_spec hex
  rw [hx.group _ hg] at hpos
  obtain ⟨i₁, hi₁, hbit₁⟩ := exists_of_tally_pos (Nat.pos_of_ne_zero hpos)
  have hclear : fs.blockbit G (Nat.find hex) i₁ = false := by simpa using hbit₁
  obtain ⟨i, hi, hfirst⟩ := exists_firstClear hclear
  refine ⟨Nat.find hex, hg, i, by omega, hfirst.clear, fun inode inodeidx => ?_⟩
  have hgroups := hG.groups
  refine allocblockLoop_eq hG h hx hg (by omega) hfirst (fun g' hg' => ?_) (Nat.zero_le _) ?_
  · exact Decidable.not_not.mp (Nat.find_min hex hg')
  · rw [h.blockcnt]
    omega

/-! ## Histories -/

/-- An image with the blocks that have been allocated and not been freed since. -/
structure Holding where
  fs : Ext2fs
  held : List Nat

/-- The calls of a history. -/
inductive BlockCall where
  | alloc (inode : Inode) (inodeidx : Nat)
  | free (block : Nat)

namespace Holding

def run (s : Holding) : BlockCall → Holding
  | .alloc inode inodeidx =>
    ⟨(s.fs.allocblock inode inodeidx).1, (s.fs.allocblock inode inodeidx).2.2 :: s.held⟩
  | .free block => ⟨s.fs.freeblock block, s.held.erase block⟩

/-- One call. -/
def Step (s : Holding) (call : BlockCall) (s' : Holding) : Prop := s' = s.run call

/-- An allocation is made for an inode of the image while some block is free, and only a block that is
held is freed. -/
def Proper (G : Geometry) (s : Holding) : BlockCall → Prop
  | .alloc _ inodeidx => G.IsInode inodeidx ∧ s.fs.SomeFree G
  | .free block => block ∈ s.held

/-- The blocks that are held of a group. -/
def heldIn (s : Holding) (G : Geometry) (g : Nat) : Nat :=
  s.held.countP fun b => decide (b / G.blockspergroup = g)

/-- What a history keeps. What has been free in the beginning is free or held. -/
structure Accounted (G : Geometry) (fs₀ : Ext2fs) (s : Holding) : Prop where
  fits : Fits G s.fs
  exact : ExactBlocks G s.fs
  nodup : s.held.Nodup
  held : ∀ b ∈ s.held, b ≠ 0 ∧ b / G.blockspergroup < G.groups ∧
    s.fs.blockbit G (b / G.blockspergroup) (b % G.blockspergroup) = true
  group : ∀ g < G.groups, s.fs.freeBlocks G g + s.heldIn G g = fs₀.freeBlocks G g
  total : (Finset.range G.groups).sum (s.fs.freeBlocks G) + s.held.length =
    (Finset.range G.groups).sum (fs₀.freeBlocks G)

end Holding

namespace Holding.Accounted

variable {fs₀ : Ext2fs} {s : Holding}

theorem start (h : Fits G fs) (hx : ExactBlocks G fs) : Accounted G fs ⟨fs, []⟩ :=
  ⟨h, hx, List.nodup_nil, nofun, fun _ _ => rfl, rfl⟩

theorem fresh (h : Accounted G fs₀ s) (hi : i < G.blockspergroup)
    (hG : G.Sound) (hbit : s.fs.blockbit G g i = false) : g * G.blockspergroup + i ∉ s.held := by
  intro hmem
  have hset := (h.held _ hmem).2.2
  rw [block_div hG hi, block_mod hi, hbit] at hset
  exact absurd hset (by decide)

theorem alloc (hG : G.Sound) (h : Accounted G fs₀ s) (hidx : G.IsInode inodeidx)
    (hfree : s.fs.SomeFree G) : Accounted G fs₀ (s.run (.alloc inode inodeidx)) := by
  obtain ⟨g, hg, i, hi, hbit, hcall⟩ := allocblock_takes hG h.fits h.exact hfree
  have hchange := @takeblock_change _ _ inode _ _ hG h.fits hidx hg i
  have hsize := hG.blockspergroup.2
  have hset := hchange.freeBlocks_set hG hg hi hbit
  have hsum := hchange.sum_freeBlocks hG hg
  rw [run, hcall]
  refine ⟨hchange.fits, hchange.exact_set hG h.exact hg hi hbit,
    List.nodup_cons.mpr ⟨h.fresh hi hG hbit, h.nodup⟩, fun b hb => ?_, fun g' hg' => ?_, ?_⟩
  · rcases List.mem_cons.mp hb with rfl | hb
    · refine ⟨block_ne_zero hG h.exact hbit, by rwa [block_div hG hi], ?_⟩
      rw [block_div hG hi, block_mod hi, hchange.bit g hg i (by omega), if_pos ⟨rfl, rfl⟩]
    · obtain ⟨hb0, hbg, hbset⟩ := h.held b hb
      refine ⟨hb0, hbg, ?_⟩
      have := Nat.mod_lt b hG.blockspergroup.1
      rw [hchange.bit _ hbg _ (by omega), hbset]
      split_ifs <;> rfl
  · have hgroup := h.group g' hg'
    rw [heldIn] at hgroup ⊢
    rw [List.countP_cons, block_div hG hi]
    by_cases heq : g' = g
    · subst heq
      simp only [decide_true, if_true]
      omega
    · rw [hchange.freeBlocks_of_ne hG hg' heq]
      simpa [Ne.symm heq] using hgroup
  · have htotal := h.total
    rw [List.length_cons]
    dsimp only
    omega

theorem free (hG : G.Sound) (h : Accounted G fs₀ s) (hx₀ : ExactBlocks G fs₀) (hb : b ∈ s.held) :
    Accounted G fs₀ (s.run (.free b)) := by
  obtain ⟨hb0, hg, hbit⟩ := h.held b hb
  have hi := Nat.mod_lt b hG.blockspergroup.1
  have hsplit : b / G.blockspergroup * G.blockspergroup + b % G.blockspergroup = b := by
    rw [Nat.mul_comm]
    exact Nat.div_add_mod b _
  have hchange := freeblock_change hG h.fits hg hi
  rw [hsplit] at hchange
  have hsize := hG.blockspergroup.2
  have hreset := hchange.freeBlocks_reset hG hg hi hbit
  have hsum := hchange.sum_freeBlocks hG hg
  have hcount : 0 < s.heldIn G (b / G.blockspergroup) :=
    List.countP_pos_iff.mpr ⟨b, hb, by rw [decide_eq_true rfl]⟩
  have hlength : 0 < s.held.length := List.length_pos_of_mem hb
  have hgroup := h.group _ hg
  have hgroup₀ := hx₀.group _ hg
  have hfew := (fs₀.bgdreadentry (b / G.blockspergroup)).unallocb_lt
  have htotal := h.total
  have htotal₀ := hx₀.total
  have hfew' := fs₀.sb.unallocb_lt
  rw [run]
  refine ⟨hchange.fits, hchange.exact_reset hG h.exact hg hi hbit ?_ (by omega) (by omega),
    h.nodup.erase b, fun c hc => ?_, fun g' hg' => ?_, ?_⟩
  · rintro ⟨hg0, hi0⟩
    rw [hg0, hi0] at hsplit
    omega
  · obtain ⟨hne, hmem⟩ := h.nodup.mem_erase_iff.mp hc
    obtain ⟨hc0, hcg, hcset⟩ := h.held c hmem
    have hci := Nat.mod_lt c hG.blockspergroup.1
    refine ⟨hc0, hcg, ?_⟩
    rw [hchange.bit _ hcg _ (by omega), if_neg, hcset]
    rintro ⟨hdiv, hmod⟩
    refine hne ?_
    rw [← Nat.div_add_mod c G.blockspergroup, hdiv, hmod, Nat.div_add_mod]
  · have hgroup' := h.group g' hg'
    rw [heldIn] at hgroup' ⊢
    rw [List.countP_erase]
    by_cases heq : g' = b / G.blockspergroup
    · subst heq
      rw [if_pos ⟨hb, by rw [decide_eq_true rfl]⟩]
      rw [heldIn] at hcount
      dsimp only
      omega
    · rw [hchange.freeBlocks_of_ne hG hg' heq, if_neg, Nat.sub_zero, hgroup']
      rintro ⟨-, hp⟩
      exact heq (of_decide_eq_true hp).symm
  · rw [List.length_erase_of_mem hb]
    dsimp only
    omega

end Holding.Accounted

/-- What an allocation gives, and what a free of it leaves. -/
structure Allocates (G : Geometry) (s : Holding) (r : Ext2fs × Inode × Nat) (g i : Nat) : Prop where
  inside : g < G.groups ∧ i < G.blockspergroup
  clear : s.fs.blockbit G g i = false
  block : r.2.2 = g * G.blockspergroup + i
  fresh : r.2.2 ∉ s.held
  bits : ∀ g' < G.groups, ∀ j < 8 * G.blksize, r.1.blockbit G g' j =
    (decide (g' = g ∧ j = i) || s.fs.blockbit G g' j)
  inodebits : ∀ g' < G.groups, ∀ j < 8 * G.blksize, r.1.inodebit G g' j = s.fs.inodebit G g' j
  exact : ExactBlocks G r.1
  /-- The superblock has been written back. -/
  super : ∀ k < Superblock.size, r.1.region G .super k = r.1.sb.raw k
  restored : ∀ g' < G.groups,
    (∀ j < 8 * G.blksize, (r.1.freeblock r.2.2).blockbit G g' j = s.fs.blockbit G g' j ∧
      (r.1.freeblock r.2.2).inodebit G g' j = s.fs.inodebit G g' j) ∧
    ((r.1.freeblock r.2.2).bgdreadentry g').unallocb = (s.fs.bgdreadentry g').unallocb
  restoredTotal : (r.1.freeblock r.2.2).sb.unallocb = s.fs.sb.unallocb
  restoredSuper : ∀ k < Superblock.size,
    (r.1.freeblock r.2.2).region G .super k = (r.1.freeblock r.2.2).sb.raw k

theorem allocates {fs₀ : Ext2fs} {s : Holding} (hG : G.Sound) (h : s.Accounted G fs₀)
    (hidx : G.IsInode inodeidx) (hfree : s.fs.SomeFree G) (inode : Inode) :
    ∃ g i, Allocates G s (s.fs.allocblock inode inodeidx) g i := by
  obtain ⟨g, hg, i, hi, hbit, hcall⟩ := allocblock_takes hG h.fits h.exact hfree
  have hchange := @takeblock_change _ _ inode _ _ hG h.fits hidx hg i
  have hback := freeblock_change hG hchange.fits hg hi
  have hsize := hG.blockspergroup.2
  have hset := hchange.freeBlocks_set hG hg hi hbit
  have hcount := h.exact.group g hg
  have hlimit := (s.fs.bgdreadentry g).unallocb_lt
  have hsum := hchange.sum_freeBlocks hG hg
  have htotal := h.exact.total
  have hlimit' := s.fs.sb.unallocb_lt
  refine ⟨g, i, ?_⟩
  rw [hcall inode inodeidx]
  refine ⟨⟨hg, hi⟩, hbit, rfl, h.fresh hi hG hbit, fun g' hg' j hj => ?_, hchange.inodebit,
    hchange.exact_set hG h.exact hg hi hbit, hchange.super,
    fun g' hg' => ⟨fun j hj => ⟨?_, ?_⟩, ?_⟩, ?_, hback.super⟩
  · rw [hchange.bit g' hg' j hj]
    by_cases heq : g' = g ∧ j = i
    · rw [if_pos heq, decide_eq_true heq, Bool.true_or]
    · rw [if_neg heq, decide_eq_false heq, Bool.false_or]
  · rw [hback.bit g' hg' j hj, hchange.bit g' hg' j hj]
    split_ifs with heq
    · rw [heq.1, heq.2, hbit]
    · rfl
  · rw [hback.inodebit g' hg' j hj, hchange.inodebit g' hg' j hj]
  · by_cases heq : g' = g
    · rw [heq, hback.group, hchange.group]
      simp only [Bool.false_eq_true, if_false, if_true]
      omega
    · rw [hback.groups g' hg' heq, hchange.groups g' hg' heq]
  · rw [hback.total, hchange.total]
    simp only [Bool.false_eq_true, if_false, if_true]
    unfold u32
    omega

/-! ## A small image -/

/-- The superblock of an image with 64 blocks and 16 inodes. -/
def smallSb : Superblock :=
  ⟨write (write (write (write (write (write (write (fun _ => 0) 4 4 64) 12 4 57) 16 4 5) 32 4 64)
    40 4 16) 84 4 11) 88 2 128⟩

/-- Its group: the bitmaps are the blocks 3 and 4, and the inodes begin at block 5. -/
def smallDesc : BlockGroupDesc :=
  ⟨write (write (write (write (write (fun _ => 0) 0 4 3) 4 4 4) 8 4 5) 12 2 57) 14 2 5⟩

/-- The blocks 0 to 6 and the inodes 1 to 11 are in use. -/
def smallDevice : Mem := fun x =>
  if x < 1024 then 0
  else if x < 1224 then smallSb.raw (x - 1024)
  else if x < 2048 then 0
  else if x < 2080 then smallDesc.raw (x - 2048)
  else if x < 3072 then 0
  else if x < 3073 then 0x7f
  else if x < 3080 then 0
  else if x < 4097 then 0xff
  else if x < 4098 then 0x07
  else if x < 5120 then 0xff
  else 0

def smallImage : Ext2fs := ⟨smallSb, 1024, 512, smallDevice⟩

def smallGeometry : Geometry where
  groups := 1
  blksize := 1024
  sectorsize := 512
  shift := 0
  blockcnt := 64
  blockspergroup := 64
  inodespergroup := 16
  first := 11
  inodesize := 128
  blockbmp _ := 3
  inodebmp _ := 4
  inodetable _ := 5

theorem smallGeometry_sound : smallGeometry.Sound := by
  refine ⟨fun r r' hr hr' hne => ?_, by decide, by decide, by decide, by decide, by decide⟩
  cases r <;> cases r' <;>
    simp [smallGeometry, Geometry.Valid, Geometry.start, Geometry.length, Superblock.size,
      BlockGroupDesc.size, Inode.size, Apart] at hr hr' hne ⊢ <;> omega

/-- An inode without blocks. -/
def emptyInode : Inode := ⟨fun _ => 0⟩

theorem small_outside {x : Nat} (hx : 7 * 1024 ≤ x) : smallGeometry.Outside x := by
  intro r hr hin
  cases r <;> simp [smallGeometry, Geometry.Valid, Geometry.start, Geometry.length, Superblock.size,
    BlockGroupDesc.size, Inode.size] at hr hin <;> omega

theorem smallImage_fits : Fits smallGeometry smallImage := by
  refine ⟨⟨by decide, by decide⟩, by decide, by decide, by decide, by decide, by decide, by decide,
    by decide, by decide, fun g hg => ?_⟩
  obtain rfl : g = 0 := Nat.lt_one_iff.mp hg
  exact ⟨by decide, by decide, by decide⟩

theorem smallImage_exact : ExactBlocks smallGeometry smallImage := by
  have hfree : (smallImage.bgdreadentry 0).unallocb = smallImage.freeBlocks smallGeometry 0 := by decide
  refine ⟨fun g hg => ?_, ?_, fun g hg i hi hi' => ?_, by decide⟩
  · obtain rfl : g = 0 := Nat.lt_one_iff.mp hg
    exact hfree
  · rw [show smallGeometry.groups = 1 from rfl, Finset.sum_range_one, ← hfree]
    decide
  · have hi : 64 ≤ i := hi
    have hi' : i < 8 * 1024 := hi'
    have hbyte : smallImage.region smallGeometry (.blockbmp g) (i / 8) = 0xff := by
      change smallDevice (3 * 1024 + i / 8) = 0xff
      rw [smallDevice, if_neg (by omega), if_neg (by omega), if_neg (by omega), if_neg (by omega),
        if_neg (by omega), if_neg (by omega), if_neg (by omega), if_pos (by omega)]
    have hbits : ∀ k < 8, (0xff : BitVec 8).getLsbD k = true := by decide
    rw [Ext2fs.blockbit, bitmapTest_eq, hbyte]
    exact hbits _ (Nat.mod_lt i (by omega))

/-- **The free blocks over all histories.** In every history of allocations and of frees of what has
been allocated, the counters are exact and the blocks that are held are distinct; while some block is
free, an allocation takes a block that was free and is not held, sets its bit and no other, and a free
of it leaves the bitmaps and counters as they were. -/
theorem allocblock_history {fs₀ : Ext2fs} {s : Holding} (hG : G.Sound) (hf : Fits G fs₀)
    (hx : ExactBlocks G fs₀) (h : Reach Holding.Step (Holding.Proper G) ⟨fs₀, []⟩ s) :
    ExactBlocks G s.fs ∧ s.held.Nodup ∧ ∀ inode inodeidx, G.IsInode inodeidx → s.fs.SomeFree G →
      ∃ g i, Allocates G s (s.fs.allocblock inode inodeidx) g i := by
  have hacc : s.Accounted G fs₀ := by
    refine h.invariant (Holding.Accounted.start hf hx) fun s call s' hs hok hstep => ?_
    rw [show s' = s.run call from hstep]
    cases call with
    | alloc inode inodeidx => exact hs.alloc hG hok.1 hok.2
    | free block => exact hs.free hG hx hok
  exact ⟨hacc.exact, hacc.nodup, fun inode inodeidx hidx hfree => allocates hG hacc hidx hfree inode⟩

theorem allocblock_history_small : ∃ g i, Allocates smallGeometry ⟨smallImage, []⟩
    (smallImage.allocblock ⟨fun _ => 0⟩ 12) g i :=
  (allocblock_history smallGeometry_sound smallImage_fits smallImage_exact .refl).2.2 _ 12
    ⟨by decide, by decide⟩ ⟨0, by decide, 7, by decide, by decide⟩

end Lyre.Ext2

/-!
## Free blocks and what they hold

An image is stocked if its counters are exact and its free blocks are apart from the metadata. An
allocation takes one of them, and changes no byte outside of the metadata: the new block holds what it
has held before (`Stocked.alloc`). Nothing is known about that. `refill` gives the free blocks other
contents, and the rest of the image does not change with them.
-/

namespace Lyre.Ext2

open Infra Infra.Bytes Ext2fs

variable {G : Geometry} {fs fs' : Ext2fs} {inode : Inode} {b k t x inodeidx : Nat}

/-- Block `b` is free. -/
def FreeBlock (G : Geometry) (fs : Ext2fs) (b : Nat) : Prop :=
  ∃ g < G.groups, ∃ i < G.blockspergroup, b = g * G.blockspergroup + i ∧ fs.blockbit G g i = false

/-- The counters are exact, and the free blocks are apart from the metadata. -/
structure Stocked (G : Geometry) (fs : Ext2fs) : Prop where
  fits : Fits G fs
  exact : ExactBlocks G fs
  free : ∀ b, FreeBlock G fs b → G.DataBlock b ∧ b < 2 ^ 32

theorem FreeBlock.ne_zero (hG : G.Sound) (hx : ExactBlocks G fs) (h : FreeBlock G fs b) : b ≠ 0 := by
  obtain ⟨g, -, i, -, rfl, hbit⟩ := h
  exact block_ne_zero hG hx hbit

theorem freeBlock_congr (hG : G.Sound)
    (hbit : ∀ g < G.groups, ∀ j < 8 * G.blksize, fs'.blockbit G g j = fs.blockbit G g j) :
    FreeBlock G fs' b ↔ FreeBlock G fs b := by
  have hsize := hG.blockspergroup.2
  unfold FreeBlock
  refine exists_congr fun g => and_congr_right fun hg => exists_congr fun i =>
    and_congr_right fun hi => ?_
  rw [hbit g hg i (by omega)]

/-! ## Allocations -/

/-- Block `n` has been taken. -/
structure Takes (G : Geometry) (fs : Ext2fs) (n : Nat) (fs' : Ext2fs) : Prop where
  free : FreeBlock G fs n
  stocked : Stocked G fs'
  total : fs'.sb.unallocb + 1 = fs.sb.unallocb
  left : ∀ b, FreeBlock G fs' b → FreeBlock G fs b ∧ b ≠ n
  outside : ∀ x, G.Outside x → fs'.device x = fs.device x

theorem Stocked.congr (h : Stocked G fs) (hG : G.Sound) (hgroups : 0 < G.groups) (hfits : Fits G fs')
    (hsb : fs'.sb = fs.sb)
    (hbit : ∀ g < G.groups, ∀ j < 8 * G.blksize, fs'.blockbit G g j = fs.blockbit G g j)
    (hgroup : ∀ g < G.groups, (fs'.bgdreadentry g).unallocb = (fs.bgdreadentry g).unallocb) :
    Stocked G fs' := by
  have hsize := hG.blockspergroup
  have hfree : ∀ g < G.groups, fs'.freeBlocks G g = fs.freeBlocks G g := fun g hg =>
    tally_congr fun j hj => by rw [hbit g hg j (by omega)]
  refine ⟨hfits, ⟨fun g hg => ?_, ?_, fun g hg i hi hi' => ?_, ?_⟩, fun b hb => ?_⟩
  · rw [hgroup g hg, hfree g hg, h.exact.group g hg]
  · rw [hsb, h.exact.total]
    exact Finset.sum_congr rfl fun g hg => (hfree g (Finset.mem_range.mp hg)).symm
  · rw [hbit g hg i hi', h.exact.padding g hg i hi hi']
  · rw [hbit 0 hgroups 0 (by omega), h.exact.zero]
  · exact h.free b ((freeBlock_congr hG hbit).mp hb)

theorem SameCounters.stocked (hsame : SameCounters G fs fs') (hG : G.Sound) (hgroups : 0 < G.groups)
    (h : Stocked G fs) : Stocked G fs' :=
  h.congr hG hgroups hsame.fits hsame.sb hsame.bit hsame.group

theorem Stocked.someFree (h : Stocked G fs) (hpos : 0 < fs.sb.unallocb) : fs.SomeFree G := by
  rw [h.exact.total] at hpos
  obtain ⟨g, hg, hsome⟩ := sum_range_pos hpos
  obtain ⟨i, hi, hbit⟩ := exists_of_tally_pos hsome
  exact ⟨g, hg, i, hi, by simpa using hbit⟩

/-- **An allocation** takes a free block and leaves what lies outside of the metadata. -/
theorem Stocked.alloc (hG : G.Sound) (h : Stocked G fs) (hidx : G.IsInode inodeidx)
    (hpos : 0 < fs.sb.unallocb) (inode : Inode) :
    ∃ n fs₁, fs.allocblock inode inodeidx = (fs₁, fs.charged inode, n) ∧ Takes G fs n fs₁ := by
  obtain ⟨g, hg, i, hi, hbit, hcall⟩ := allocblock_takes hG h.fits h.exact (h.someFree hpos)
  have hchange := @takeblock_change _ _ inode _ _ hG h.fits hidx hg i
  have hsize := hG.blockspergroup.2
  have hleft : ∀ b, FreeBlock G (fs.takeblock (bitmapSet (fs.region G (.blockbmp g)) i) inode
      inodeidx g).1 b → FreeBlock G fs b ∧ b ≠ g * G.blockspergroup + i := by
    rintro b ⟨g', hg', i', hi', rfl, hclear⟩
    rw [hchange.bit g' hg' i' (by omega)] at hclear
    split_ifs at hclear with heq
    exact ⟨⟨g', hg', i', hi', rfl, hclear⟩, fun hsame => heq (index_inj hi' hi hsame)⟩
  have hexact := hchange.exact_set hG h.exact hg hi hbit
  have hcount := h.exact.total
  have hfreed := hchange.freeBlocks_set hG hg hi hbit
  have hsum := hchange.sum_freeBlocks hG hg
  refine ⟨g * G.blockspergroup + i, _, (hcall inode inodeidx).trans ?_,
    ⟨g, hg, i, hi, rfl, hbit⟩, ⟨hchange.fits, hexact, fun b hb => h.free b (hleft b hb).1⟩, ?_,
    hleft, hchange.outside⟩
  · rw [takeblock_eq hG h.fits hidx hg]
  · rw [hexact.total, hcount]
    omega

theorem Stocked.writeinode (hG : G.Sound) (h : Stocked G fs) (hidx : G.IsInode inodeidx)
    (inode : Inode) : SameCounters G fs (fs.inodewriteentry inode inodeidx) := by
  rw [h.fits.inodewriteentry hG hidx]
  exact writeinode_same hG h.fits hidx

/-! ## Other contents -/

/-- Only the contents of free blocks differ. -/
structure SameButFree (G : Geometry) (fs fs' : Ext2fs) : Prop where
  sb : fs'.sb = fs.sb
  blksize : fs'.blksize = fs.blksize
  sectorsize : fs'.sectorsize = fs.sectorsize
  device : ∀ x, ¬ FreeBlock G fs (x / G.blksize) → fs'.device x = fs.device x

theorem SameButFree.refl (fs : Ext2fs) : SameButFree G fs fs := ⟨rfl, rfl, rfl, fun _ _ => rfl⟩

namespace SameButFree

theorem region (h : SameButFree G fs fs') (hs : Stocked G fs) {r : Region} (hr : G.Valid r)
    (hk : k < G.length r) : fs'.region G r k = fs.region G r k :=
  h.device _ fun hfree => (hs.free _ hfree).1 _ rfl r hr
    ⟨Nat.le_add_right _ k, Nat.add_lt_add_left hk _⟩

theorem fits (h : SameButFree G fs fs') (hs : Stocked G fs) : Fits G fs' :=
  hs.fits.congr h.blksize h.sectorsize (by rw [h.sb]; exact Fits.rfl_static _)
    fun g hg k hk => h.region hs (show G.Valid (.desc g) from hg) (show k < 32 by omega)

theorem bit (h : SameButFree G fs fs') (hs : Stocked G fs) :
    ∀ g < G.groups, ∀ j < 8 * G.blksize, fs'.blockbit G g j = fs.blockbit G g j :=
  fun g hg j hj => bitmapTest_congr (h.region hs (show G.Valid (.blockbmp g) from hg)
    (show j / 8 < G.blksize by omega))

theorem freeBlock (h : SameButFree G fs fs') (hG : G.Sound) (hs : Stocked G fs) :
    FreeBlock G fs' b ↔ FreeBlock G fs b := freeBlock_congr hG (h.bit hs)

theorem stocked (h : SameButFree G fs fs') (hG : G.Sound) (hgroups : 0 < G.groups)
    (hs : Stocked G fs) : Stocked G fs' := by
  refine hs.congr hG hgroups (h.fits hs) h.sb (h.bit hs) fun g hg => ?_
  have hdesc : ∀ k < 32, fs'.region G (.desc g) k = fs.region G (.desc g) k := fun k hk =>
    h.region hs (show G.Valid (.desc g) from hg) hk
  rw [(h.fits hs).bgdreadentry, hs.fits.bgdreadentry]
  exact field_congr hdesc (by decide)

theorem word (h : SameButFree G fs fs') (hs : Stocked G fs) (hused : ¬ FreeBlock G fs t)
    (hk : k < G.blksize / 4) : fs'.word t k = fs.word t k :=
  word_congr hs.fits (h.fits hs) hk fun x hx => h.device x (by rwa [hx])

end SameButFree

open Classical in
/-- The words of the free blocks become `v`. -/
noncomputable def Ext2fs.refill (fs : Ext2fs) (G : Geometry) (v : Nat → Nat → Nat) : Ext2fs :=
  { fs with device := fun x =>
      if FreeBlock G fs (x / G.blksize) then
        BitVec.ofNat 8 (v (x / G.blksize) (x % G.blksize / 4) / 256 ^ (x % G.blksize % 4))
      else fs.device x }

theorem refill_sameButFree (fs : Ext2fs) (v : Nat → Nat → Nat) : SameButFree G fs (fs.refill G v) :=
  ⟨rfl, rfl, rfl, fun _ hx => if_neg hx⟩

theorem word_refill {v : Nat → Nat → Nat} (hs : Stocked G fs) (hfree : FreeBlock G fs b)
    (hk : k < G.blksize / 4) : (fs.refill G v).word b k = u32 (v b k) := by
  rw [Ext2fs.word]
  refine read_digits fun x hx hx' => ?_
  rw [show (fs.refill G v).blksize = G.blksize from hs.fits.blksize] at hx hx' ⊢
  have hblock : x / G.blksize = b := Nat.div_eq_of_lt_le (by omega) (by rw [Nat.add_mul, Nat.one_mul]; omega)
  have hoff : x % G.blksize = x - b * G.blksize := by
    rw [Nat.mod_eq_sub_div_mul, hblock]
  have hword : (x - b * G.blksize) / 4 = k := by omega
  have hbyte : (x - b * G.blksize) % 4 = x - (b * G.blksize + k * 4) := by omega
  refine (if_pos (by rwa [hblock])).trans ?_
  rw [hblock, hoff, hword, hbyte]

end Lyre.Ext2

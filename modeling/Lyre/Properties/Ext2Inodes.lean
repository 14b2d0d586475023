import Lyre.Properties.Ext2Blocks

/-!
# The free inodes of ext2

`ext2fs_allocinode` ends in the first byte of a bitmap that has a clear bit. If that byte has the bit
of an inode that may be given out, the first such bit is set and its inode returned. If all its clear
bits are those of reserved inodes, the last of them is returned, none is set, and the next call returns
it again. `FreshByte` is the condition, and with it every call gives an inode that none gave before.
-/

namespace Lyre.Ext2

open Infra Infra.Bytes Ext2fs

variable {G : Geometry} {fs fs' : Ext2fs} {g g' i j b c left bit first rsvd limit : Nat}
  {bitmap : Bitmap} {inode : Nat}

/-! ## The search -/

/-- Inode `n` may be given out. -/
def Unreserved (rsvd n : Nat) : Prop := rsvd < n ∧ 11 < n

instance (rsvd n : Nat) : Decidable (Unreserved rsvd n) := inferInstanceAs (Decidable (_ ∧ _))

theorem inodeBits_take (hbit : bitmapTest bitmap (bit + j * 8) = false)
    (huse : Unreserved rsvd (first + j * 8 + bit + 1)) :
    inodeBits first j rsvd bitmap (left + 1) bit inode =
      (bitmapSet bitmap (bit + j * 8), first + j * 8 + bit + 1) := by
  rw [inodeBits, if_pos hbit]
  exact if_pos huse

theorem inodeBits_reserved (hbit : bitmapTest bitmap (bit + j * 8) = false)
    (huse : ¬ Unreserved rsvd (first + j * 8 + bit + 1)) :
    inodeBits first j rsvd bitmap (left + 1) bit inode =
      inodeBits first j rsvd bitmap left (bit + 1) (first + j * 8 + bit + 1) := by
  rw [inodeBits, if_pos hbit]
  exact if_neg huse

theorem inodeBits_used (hbit : ¬ bitmapTest bitmap (bit + j * 8) = false) :
    inodeBits first j rsvd bitmap (left + 1) bit inode =
      inodeBits first j rsvd bitmap left (bit + 1) inode := by
  rw [inodeBits, if_neg hbit]

theorem inodeBits_finds (hle : bit ≤ b) (hlt : b < bit + left)
    (hclear : bitmapTest bitmap (b + j * 8) = false) (hfree : Unreserved rsvd (first + j * 8 + b + 1)) :
    ∃ c ≤ b, bitmapTest bitmap (c + j * 8) = false ∧ Unreserved rsvd (first + j * 8 + c + 1) ∧
      inodeBits first j rsvd bitmap left bit inode =
        (bitmapSet bitmap (c + j * 8), first + j * 8 + c + 1) := by
  induction left generalizing bit inode with
  | zero => omega
  | succ left ih =>
    by_cases hbit : bitmapTest bitmap (bit + j * 8) = false
    · by_cases huse : Unreserved rsvd (first + j * 8 + bit + 1)
      · exact ⟨bit, hle, hbit, huse, inodeBits_take hbit huse⟩
      · have hne : bit ≠ b := by
          rintro rfl
          exact huse hfree
        rw [inodeBits_reserved hbit huse]
        exact ih (by omega) (by omega)
    · have hne : bit ≠ b := by
        rintro rfl
        exact hbit hclear
      rw [inodeBits_used hbit]
      exact ih (by omega) (by omega)

/-- Below `limit` no bit is set if none serves. -/
theorem inodeBits_keeps (hnone : ∀ c, j * 8 ≤ c → c < bit + left + j * 8 → c < limit →
      bitmapTest bitmap c = false → ¬ Unreserved rsvd (first + c + 1)) (hi : i < limit) :
    bitmapTest (inodeBits first j rsvd bitmap left bit inode).1 i = bitmapTest bitmap i := by
  induction left generalizing bit inode with
  | zero => rfl
  | succ left ih =>
    by_cases hbit : bitmapTest bitmap (bit + j * 8) = false
    · by_cases huse : Unreserved rsvd (first + j * 8 + bit + 1)
      · have hbehind : limit ≤ bit + j * 8 := by
          by_contra hin
          refine hnone (bit + j * 8) (by omega) (by omega) (by omega) hbit ?_
          rwa [show first + (bit + j * 8) + 1 = first + j * 8 + bit + 1 by omega]
        rw [inodeBits_take hbit huse, bitmapTest_bitmapSet]
        simp only [decide_eq_false (show ¬ bit + j * 8 = i by omega), Bool.false_or]
      · rw [inodeBits_reserved hbit huse]
        exact ih fun c hle hc => hnone c hle (by omega)
    · rw [inodeBits_used hbit]
      exact ih fun c hle hc => hnone c hle (by omega)

theorem inodeBits_ne_zero (h : inode ≠ 0 ∨ ∃ b, bit ≤ b ∧ b < bit + left ∧
      bitmapTest bitmap (b + j * 8) = false) :
    (inodeBits first j rsvd bitmap left bit inode).2 ≠ 0 := by
  induction left generalizing bit inode with
  | zero =>
    rcases h with hne | ⟨b, hle, hlt, -⟩
    · exact hne
    · omega
  | succ left ih =>
    by_cases hbit : bitmapTest bitmap (bit + j * 8) = false
    · by_cases huse : Unreserved rsvd (first + j * 8 + bit + 1)
      · rw [inodeBits_take hbit huse]
        exact Nat.succ_ne_zero _
      · rw [inodeBits_reserved hbit huse]
        exact ih (.inl (Nat.succ_ne_zero _))
    · rw [inodeBits_used hbit]
      rcases h with hne | ⟨b, hle, hlt, hclear⟩
      · exact ih (.inl hne)
      · have hother : b ≠ bit := by
          rintro rfl
          exact hbit hclear
        exact ih (.inr ⟨b, by omega, by omega, hclear⟩)

/-- The byte of the first clear bit is searched, and no other one behind it. -/
theorem inodeBytes_eq (h : FirstClear bitmap (j * 8) i) (hi : i < (j + left) * 8) :
    inodeBytes first rsvd bitmap left j = inodeBits first (i / 8) rsvd bitmap 8 0 0 := by
  induction left generalizing j with
  | zero =>
    have := h.le
    omega
  | succ left ih =>
    have hle := h.le
    rw [inodeBytes]
    by_cases hfull : bitmap j = 0xff
    · rw [if_pos hfull]
      have hset := bitmap_byte_full_iff.mp hfull
      have hbehind : (j + 1) * 8 ≤ i := by
        by_contra hin
        have hbit := hset (i - j * 8) (by omega)
        rw [show i - j * 8 + j * 8 = i by omega, h.clear] at hbit
        exact absurd hbit (by decide)
      exact ih (h.mono (by omega) hbehind) (by omega)
    · rw [if_neg hfull]
      have hin : i < (j + 1) * 8 := by
        by_contra hbehind
        exact hfull (bitmap_byte_full_iff.mpr fun k hk => h.before _ (by omega) (by omega))
      obtain rfl : j = i / 8 := by omega
      have hclear := h.clear
      rw [show i = i % 8 + i / 8 * 8 by omega] at hclear
      have hne : (inodeBits first (i / 8) rsvd bitmap 8 0 0).2 ≠ 0 :=
        inodeBits_ne_zero (.inr ⟨i % 8, by omega, by omega, hclear⟩)
      exact if_pos hne

/-! ## The counters -/

/-- The number of clear bits of a group. -/
def Ext2fs.freeInodes (fs : Ext2fs) (G : Geometry) (g : Nat) : Nat :=
  tally (fun i => !fs.inodebit G g i) G.inodespergroup

/-- The counters are the numbers of clear bits. -/
structure ExactInodes (G : Geometry) (fs : Ext2fs) : Prop where
  group : ∀ g < G.groups, (fs.bgdreadentry g).unalloci = fs.freeInodes G g
  total : fs.sb.unalloci = (Finset.range G.groups).sum (fs.freeInodes G)

theorem ExactInodes.ne_zero (hx : ExactInodes G fs) (hg : g < G.groups) (hi : i < G.inodespergroup)
    (hbit : fs.inodebit G g i = false) : (fs.bgdreadentry g).unalloci ≠ 0 := by
  have hpos := tally_pos (p := fun i => !fs.inodebit G g i) hi (by rw [hbit]; rfl)
  rw [hx.group g hg]
  exact Nat.ne_of_gt hpos

/-- The inode bitmap of group `g` becomes `bitmap`, and the counters lose one inode. -/
structure InodeChange (G : Geometry) (fs : Ext2fs) (g : Nat) (bitmap : Bitmap) (fs' : Ext2fs) :
    Prop where
  fits : Fits G fs'
  bit : ∀ g' < G.groups, ∀ j < 8 * G.blksize,
    fs'.inodebit G g' j = if g' = g then bitmapTest bitmap j else fs.inodebit G g' j
  blockbit : ∀ g' < G.groups, ∀ j < 8 * G.blksize, fs'.blockbit G g' j = fs.blockbit G g' j
  group : (fs'.bgdreadentry g).unalloci = (fs.bgdreadentry g).unalloci - 1
  groups : ∀ g' < G.groups, g' ≠ g → (fs'.bgdreadentry g').unalloci = (fs.bgdreadentry g').unalloci
  total : fs'.sb.unalloci = u32 (fs.sb.unalloci + (2 ^ 32 - 1))

theorem setUnalloci_raw {bgd : BlockGroupDesc} {v k : Nat} (hk : k < 12) :
    (bgd.setUnalloci v).raw k = bgd.raw k := write_sameOff _ _ _ _ k (by omega)

theorem takeinode_eq (hG : G.Sound) (h : Fits G fs) (hg : g < G.groups) :
    fs.takeinode bitmap g =
      fs.update G (fs.sb.setUnalloci (u32 (fs.sb.unalloci + (2 ^ 32 - 1)))) (.inodebmp g) bitmap g
        ((fs.bgdreadentry g).setUnalloci ((fs.bgdreadentry g).unalloci - 1)) := by
  have hr : G.Valid (.inodebmp g) := hg
  have hd : G.Valid (.desc g) := hg
  have h₁ := h.writeregion (m := bitmap) hG hr nofun
  have h₂ := h₁.withSb (fs.sb.setUnalloci_static (u32 (fs.sb.unalloci + (2 ^ 32 - 1))))
  have h₃ := h₂.writeregion
    (m := ((fs.bgdreadentry g).setUnalloci ((fs.bgdreadentry g).unalloci - 1)).raw) hG hd
    fun g' heq k hk => by
      obtain rfl : g = g' := Region.desc.inj heq
      rw [setUnalloci_raw hk, h.bgdreadentry]
      exact (writeregion_region hG hr hd (show k < 32 by omega)).symm
  have hbgd := h₂.bgdwriteentry ((fs.bgdreadentry g).setUnalloci ((fs.bgdreadentry g).unalloci - 1)) g
  rw [Ext2fs.takeinode, (h.desc g hg).2.1, h.writebitmap_inode]
  change ((_ : Ext2fs).bgdwriteentry _ g).writesuperblock = _
  rw [writeregion_sb, hbgd, h₃.writesuperblock]
  rfl

theorem takeinode_change (hG : G.Sound) (h : Fits G fs) (hg : g < G.groups) (bitmap : Bitmap) :
    InodeChange G fs g bitmap (fs.takeinode bitmap g) := by
  have hr : G.Valid (.inodebmp g) := hg
  have hfits : Fits G (fs.takeinode bitmap g) := by
    rw [takeinode_eq hG h hg]
    refine update_fits hG h hr (by simp) hg (fs.sb.setUnalloci_static _) fun k hk => ?_
    rw [setUnalloci_raw hk, h.bgdreadentry]
  rw [takeinode_eq hG h hg] at hfits ⊢
  refine ⟨hfits, fun g' hg' j hj => ?_, fun g' hg' j hj => ?_, ?_, fun g' hg' hne => ?_, ?_⟩
  · rw [Ext2fs.inodebit, update_bit hG hr hg (show G.Valid (.inodebmp g') from hg') rfl (by simp) (by simp) hj]
    by_cases heq : g' = g
    · rw [if_pos (congrArg Region.inodebmp heq), if_pos heq]
    · rw [if_neg fun h => heq (Region.inodebmp.inj h), if_neg heq]
      rfl
  · rw [Ext2fs.blockbit, update_bit hG hr hg (show G.Valid (.blockbmp g') from hg') rfl (by simp) (by simp) hj,
      if_neg (by simp)]
    rfl
  · have := (fs.bgdreadentry g).unalloci_lt
    rw [(update_counters hG h hfits hr (by simp) hg hg).2, if_pos rfl,
      BlockGroupDesc.setUnalloci_unalloci]
    omega
  · rw [(update_counters hG h hfits hr (by simp) hg hg').2, if_neg hne]
  · exact (Superblock.setUnalloci_unalloci _ _).trans (u32_u32 _)

theorem InodeChange.exact_set (h : InodeChange G fs g (bitmapSet (fs.region G (.inodebmp g)) i) fs')
    (hG : G.Sound) (hx : ExactInodes G fs) (hg : g < G.groups) (hi : i < G.inodespergroup)
    (hbit : fs.inodebit G g i = false) : ExactInodes G fs' := by
  have hsize := hG.inodespergroup.2
  have hthere : ∀ j < 8 * G.blksize, fs'.inodebit G g j = (decide (i = j) || fs.inodebit G g j) :=
    fun j hj => by
      rw [h.bit g hg j hj, if_pos rfl, bitmapTest_bitmapSet]
      rfl
  have hset : fs'.freeInodes G g + 1 = fs.freeInodes G g := by
    refine tally_clear hi (by rw [hbit]; rfl) ?_ fun j hj hne => ?_
    · rw [hthere i (by omega), decide_eq_true rfl]
      rfl
    · rw [hthere j (by omega), decide_eq_false (Ne.symm hne), Bool.false_or]
  have hothers : ∀ g' < G.groups, g' ≠ g → fs'.freeInodes G g' = fs.freeInodes G g' :=
    fun g' hg' hne => tally_congr fun j hj => by rw [h.bit g' hg' j (by omega), if_neg hne]
  have hsum := sum_range_change hg hothers
  have htotal := fs.sb.unalloci_lt
  refine ⟨fun g' hg' => ?_, ?_⟩
  · by_cases heq : g' = g
    · subst heq
      rw [h.group, hx.group g' hg]
      omega
    · rw [h.groups g' hg' heq, hx.group g' hg', hothers g' hg' heq]
  · rw [h.total, hx.total]
    rw [hx.total] at htotal
    unfold u32
    omega

/-! ## One call -/

theorem allocinodeLoop_eq (hG : G.Sound) (h : Fits G fs) (hx : ExactInodes G fs) (hg : g < G.groups)
    (hi : i < G.inodespergroup) (hfirst : FirstClear (fs.region G (.inodebmp g)) 0 i)
    (hbefore : ∀ g' < g, (fs.bgdreadentry g').unalloci = 0) (hjg : j ≤ g) (hleft : g < j + left) :
    allocinodeLoop fs left j =
      (fs.takeinode (inodeBits (g * G.inodespergroup) (i / 8) G.first
          (fs.region G (.inodebmp g)) 8 0 0).1 g,
        (inodeBits (g * G.inodespergroup) (i / 8) G.first (fs.region G (.inodebmp g)) 8 0 0).2) := by
  induction left generalizing j with
  | zero => omega
  | succ left ih =>
    rw [allocinodeLoop]
    rcases Nat.eq_or_lt_of_le hjg with rfl | hlt
    · have hsize := hG.inodespergroup.2
      have hfound := @inodeBytes_eq _ 0 G.blksize (j * G.inodespergroup) G.first _ (hfirst.mono (Nat.zero_le _) (by omega)) (by omega)
      have hclear := hfirst.clear
      rw [show i = i % 8 + i / 8 * 8 by omega] at hclear
      have hne : (inodeBits (j * G.inodespergroup) (i / 8) G.first
          (fs.region G (.inodebmp j)) 8 0 0).2 ≠ 0 :=
        inodeBits_ne_zero (.inr ⟨i % 8, by omega, by omega, hclear⟩)
      simp only [if_neg (hx.ne_zero hg hi hfirst.clear), (h.desc j hg).2.1, h.readbitmap_inode,
        h.inodespergroup, h.first, h.blksize, hfound, if_neg hne]
    · simp only [if_pos (hbefore j hlt)]
      exact ih (by omega) (by omega)

theorem allocinode_searches (hG : G.Sound) (h : Fits G fs) (hx : ExactInodes G fs) (hg : g < G.groups)
    (hi : i < G.inodespergroup) (hbit : fs.inodebit G g i = false) :
    ∃ g₁ < G.groups, (∀ g' < g₁, (fs.bgdreadentry g').unalloci = 0) ∧ ∃ i₁ < G.inodespergroup,
      FirstClear (fs.region G (.inodebmp g₁)) 0 i₁ ∧ fs.allocinode =
        (fs.takeinode (inodeBits (g₁ * G.inodespergroup) (i₁ / 8) G.first
            (fs.region G (.inodebmp g₁)) 8 0 0).1 g₁,
          (inodeBits (g₁ * G.inodespergroup) (i₁ / 8) G.first
            (fs.region G (.inodebmp g₁)) 8 0 0).2) := by
  have hex : ∃ g, (fs.bgdreadentry g).unalloci ≠ 0 := ⟨g, hx.ne_zero hg hi hbit⟩
  have hle := Nat.find_min' hex (hx.ne_zero hg hi hbit)
  have hin : Nat.find hex < G.groups := by omega
  have hbefore : ∀ g' < Nat.find hex, (fs.bgdreadentry g').unalloci = 0 := fun g' hg' =>
    Decidable.not_not.mp (Nat.find_min hex hg')
  have hpos := Nat.find_spec hex
  rw [hx.group _ hin] at hpos
  obtain ⟨i₂, hi₂, hbit₂⟩ := exists_of_tally_pos (Nat.pos_of_ne_zero hpos)
  have hclear : fs.inodebit G (Nat.find hex) i₂ = false := by simpa using hbit₂
  obtain ⟨i₁, hi₁, hfirst⟩ := exists_firstClear hclear
  have hgroups := hG.groups
  refine ⟨Nat.find hex, hin, hbefore, i₁, by omega, hfirst, ?_⟩
  refine allocinodeLoop_eq hG h hx hin (by omega) hfirst hbefore (Nat.zero_le _) ?_
  rw [h.blockcnt]
  omega

/-- In the first group with a free inode, the first byte with a clear bit has one whose inode may be
given out. -/
def Ext2fs.FreshByte (fs : Ext2fs) (G : Geometry) : Prop :=
  ∃ g < G.groups, (∀ g' < g, (fs.bgdreadentry g').unalloci = 0) ∧ ∃ i < G.inodespergroup,
    (∀ c < i / 8 * 8, fs.inodebit G g c = true) ∧ fs.inodebit G g i = false ∧
    Unreserved G.first (g * G.inodespergroup + i + 1)

/-- The number of a free inode is returned, and its bit is set and no other one. -/
structure TakesInode (G : Geometry) (fs : Ext2fs) (r : Ext2fs × Nat) (g i : Nat) : Prop where
  inside : g < G.groups ∧ i < G.inodespergroup
  clear : fs.inodebit G g i = false
  inode : r.2 = g * G.inodespergroup + i + 1
  bits : ∀ g' < G.groups, ∀ j < 8 * G.blksize, r.1.inodebit G g' j =
    (decide (g' = g ∧ j = i) || fs.inodebit G g' j)
  blockbits : ∀ g' < G.groups, ∀ j < 8 * G.blksize, r.1.blockbit G g' j = fs.blockbit G g' j

theorem allocinode_takes (hG : G.Sound) (h : Fits G fs) (hx : ExactInodes G fs) (hfresh : fs.FreshByte G) :
    ∃ g i, TakesInode G fs fs.allocinode g i ∧ Fits G fs.allocinode.1 ∧ ExactInodes G fs.allocinode.1 := by
  obtain ⟨g, hg, hbefore, i, hi, hset, hbit, huse⟩ := hfresh
  obtain ⟨g₁, hg₁, hbefore₁, i₁, hi₁, hfirst, hcall⟩ := allocinode_searches hG h hx hg hi hbit
  -- the group and the byte are the ones of the condition
  obtain rfl : g₁ = g := by
    rcases Nat.lt_trichotomy g₁ g with hlt | heq | hgt
    · exact absurd (hbefore g₁ hlt) (hx.ne_zero hg₁ hi₁ hfirst.clear)
    · exact heq
    · exact absurd (hbefore₁ g hgt) (hx.ne_zero hg hi hbit)
  have hbyte : i₁ / 8 = i / 8 := by
    have hle : i₁ ≤ i := by
      by_contra hlt
      rw [Ext2fs.inodebit, hfirst.before i (Nat.zero_le i) (by omega)] at hbit
      exact absurd hbit (by decide)
    have hge : i / 8 * 8 ≤ i₁ := by
      by_contra hlt
      have hfull := hset i₁ (by omega)
      rw [Ext2fs.inodebit, hfirst.clear] at hfull
      exact absurd hfull (by decide)
    omega
  rw [hbyte] at hcall
  have hclear : bitmapTest (fs.region G (.inodebmp g₁)) (i % 8 + i / 8 * 8) = false := by
    rw [show i % 8 + i / 8 * 8 = i by omega]
    exact hbit
  have hnumber : g₁ * G.inodespergroup + i / 8 * 8 + i % 8 + 1 = g₁ * G.inodespergroup + i + 1 := by omega
  obtain ⟨c, hc, hcclear, -, hfound⟩ := @inodeBits_finds _ _ _ _ (g₁ * G.inodespergroup) _ _ 0
    (Nat.zero_le (i % 8)) (show i % 8 < 0 + 8 by omega) hclear (hnumber ▸ huse)
  obtain ⟨k, rfl⟩ : ∃ k, k = c + i / 8 * 8 := ⟨_, rfl⟩
  have hk : c + i / 8 * 8 < G.inodespergroup := by omega
  have hchange := takeinode_change hG h hg (bitmapSet (fs.region G (.inodebmp g₁)) (c + i / 8 * 8))
  rw [hcall, hfound]
  refine ⟨g₁, c + i / 8 * 8, ⟨⟨hg, hk⟩, hcclear, by dsimp only; omega, fun g' hg' j hj => ?_,
    hchange.blockbit⟩, hchange.fits, hchange.exact_set hG hx hg hk hcclear⟩
  rw [hchange.bit g' hg' j hj]
  by_cases heq : g' = g₁
  · subst heq
    rw [if_pos rfl, bitmapTest_bitmapSet]
    simp [Ext2fs.inodebit, eq_comm]
  · rw [if_neg heq, decide_eq_false fun h => heq h.1, Bool.false_or]

theorem allocinode_sets_none (hG : G.Sound) (h : Fits G fs) (hx : ExactInodes G fs)
    (hfresh : ¬ fs.FreshByte G) : ¬ ∃ g i, TakesInode G fs fs.allocinode g i := by
  rintro ⟨g, i, htakes⟩
  obtain ⟨hg, hi⟩ := htakes.inside
  obtain ⟨g₁, hg₁, hbefore, i₁, hi₁, hfirst, hcall⟩ := allocinode_searches hG h hx hg hi htakes.clear
  have hsize := hG.inodespergroup.2
  have hchange := takeinode_change hG h hg₁ (inodeBits (g₁ * G.inodespergroup) (i₁ / 8) G.first
    (fs.region G (.inodebmp g₁)) 8 0 0).1
  have hafter := htakes.bits g hg i (by omega)
  rw [decide_eq_true ⟨rfl, rfl⟩, Bool.true_or, hcall, hchange.bit g hg i (by omega)] at hafter
  split_ifs at hafter with heq
  · subst heq
    rw [@inodeBits_keeps _ _ _ _ _ _ G.inodespergroup _ _ ?_ hi] at hafter
    · have hclear := htakes.clear
      rw [Ext2fs.inodebit, hafter] at hclear
      exact absurd hclear (by decide)
    · intro c hle hlt hc hclear huse
      refine hfresh ⟨g, hg, hbefore, c, hc, fun d hd => ?_, hclear, huse⟩
      exact hfirst.before d (Nat.zero_le d) (by omega)
  · rw [htakes.clear] at hafter
    exact absurd hafter (by decide)

/-! ## Successive calls -/

/-- An image with what the calls have returned. -/
structure Giving where
  fs : Ext2fs
  given : List Nat

namespace Giving

/-- One call. -/
def Step (s : Giving) (_ : Unit) (s' : Giving) : Prop :=
  s' = ⟨s.fs.allocinode.1, s.fs.allocinode.2 :: s.given⟩

/-- What the calls keep: what they have returned are numbers of inodes whose bits are set. -/
structure Accounted (G : Geometry) (s : Giving) : Prop where
  fits : Fits G s.fs
  exact : ExactInodes G s.fs
  nodup : s.given.Nodup
  given : ∀ n ∈ s.given, ∃ g < G.groups, ∃ i < G.inodespergroup,
    n = g * G.inodespergroup + i + 1 ∧ s.fs.inodebit G g i = true

theorem Accounted.fresh {s : Giving} {r : Ext2fs × Nat} (h : s.Accounted G)
    (htakes : TakesInode G s.fs r g i) : r.2 ∉ s.given := by
  intro hmem
  obtain ⟨g', -, i', hi', hn, hbit⟩ := h.given _ hmem
  rw [htakes.inode] at hn
  obtain ⟨rfl, rfl⟩ := index_inj htakes.inside.2 hi' (Nat.succ.inj hn)
  rw [htakes.clear] at hbit
  exact absurd hbit (by decide)

theorem Accounted.step {s s' : Giving} (hG : G.Sound) (h : s.Accounted G) (hfresh : s.fs.FreshByte G)
    (hstep : Step s () s') : s'.Accounted G := by
  obtain ⟨g, i, htakes, hfits, hexact⟩ := allocinode_takes hG h.fits h.exact hfresh
  have hsize := hG.inodespergroup.2
  have hi := htakes.inside.2
  subst hstep
  refine ⟨hfits, hexact, List.nodup_cons.mpr ⟨h.fresh htakes, h.nodup⟩, fun n hn => ?_⟩
  rcases List.mem_cons.mp hn with rfl | hn
  · refine ⟨g, htakes.inside.1, i, hi, htakes.inode, ?_⟩
    rw [htakes.bits g htakes.inside.1 i (by omega), decide_eq_true ⟨rfl, rfl⟩, Bool.true_or]
  · obtain ⟨g', hg', i', hi', heq, hbit⟩ := h.given n hn
    refine ⟨g', hg', i', hi', heq, ?_⟩
    rw [htakes.bits g' hg' i' (by omega), hbit, Bool.or_true]

end Giving

/-- **The inodes that successive calls give out.** Over every run of calls that each meet a byte with
an inode to give out, the results are distinct; and a call returns a free inode and sets its bit and
no other one exactly if it meets such a byte. -/
theorem allocinode_history_iff {fs₀ : Ext2fs} {s : Giving} (hG : G.Sound) (hf : Fits G fs₀)
    (hx : ExactInodes G fs₀) (h : Reach Giving.Step (fun s _ => s.fs.FreshByte G) ⟨fs₀, []⟩ s) :
    s.given.Nodup ∧ ((∃ g i, TakesInode G s.fs s.fs.allocinode g i ∧ s.fs.allocinode.2 ∉ s.given) ↔
      s.fs.FreshByte G) := by
  have hacc : s.Accounted G := by
    refine h.invariant ⟨hf, hx, List.nodup_nil, nofun⟩ fun s _ s' hs hfresh hstep => ?_
    exact hs.step hG hfresh hstep
  refine ⟨hacc.nodup, fun hcall => ?_, fun hfresh => ?_⟩
  · obtain ⟨g, i, htakes, -⟩ := hcall
    by_contra hnot
    exact allocinode_sets_none hG hacc.fits hacc.exact hnot ⟨g, i, htakes⟩
  · obtain ⟨g, i, htakes, -⟩ := allocinode_takes hG hacc.fits hacc.exact hfresh
    exact ⟨g, i, htakes, hacc.fresh htakes⟩

theorem smallImage_exactInodes : ExactInodes smallGeometry smallImage := by
  have hfree : (smallImage.bgdreadentry 0).unalloci = smallImage.freeInodes smallGeometry 0 := by decide
  refine ⟨fun g hg => ?_, ?_⟩
  · obtain rfl : g = 0 := Nat.lt_one_iff.mp hg
    exact hfree
  · rw [show smallGeometry.groups = 1 from rfl, Finset.sum_range_one, ← hfree]
    decide

theorem allocinode_history_small :
    (∃ g i, TakesInode smallGeometry smallImage smallImage.allocinode g i ∧
      smallImage.allocinode.2 ∉ ([] : List Nat)) ↔ smallImage.FreshByte smallGeometry :=
  (allocinode_history_iff smallGeometry_sound smallImage_fits smallImage_exactInodes .refl).2

/-- The small image, with inode 8 not in use. -/
def reservedImage : Ext2fs where
  sb := smallSb.setUnalloci 6
  blksize := 1024
  sectorsize := 512
  device := fun x =>
    if x = 4096 then 0x7f
    else if x < 1224 then if x < 1024 then 0 else (smallSb.setUnalloci 6).raw (x - 1024)
    else if x < 2080 then if x < 2048 then 0 else (smallDesc.setUnalloci 6).raw (x - 2048)
    else smallDevice x

theorem reservedImage_fits : Fits smallGeometry reservedImage := by
  refine ⟨⟨by decide, by decide⟩, by decide, by decide, by decide, by decide, by decide, by decide,
    by decide, by decide, fun g hg => ?_⟩
  obtain rfl : g = 0 := Nat.lt_one_iff.mp hg
  exact ⟨by decide, by decide, by decide⟩

theorem reservedImage_exactInodes : ExactInodes smallGeometry reservedImage := by
  have hfree : (reservedImage.bgdreadentry 0).unalloci = reservedImage.freeInodes smallGeometry 0 := by
    decide
  refine ⟨fun g hg => ?_, ?_⟩
  · obtain rfl : g = 0 := Nat.lt_one_iff.mp hg
    exact hfree
  · rw [show smallGeometry.groups = 1 from rfl, Finset.sum_range_one, ← hfree]
    decide

/-- The inodes 12 to 16 are free, but two calls return inode 8, and no bit is set. -/
theorem allocinode_repeats : Fits smallGeometry reservedImage ∧
    ExactInodes smallGeometry reservedImage ∧
    (∃ g < smallGeometry.groups, ∃ i < smallGeometry.inodespergroup,
      reservedImage.inodebit smallGeometry g i = false ∧
      Unreserved smallGeometry.first (g * smallGeometry.inodespergroup + i + 1)) ∧
    (¬ ∃ g i, TakesInode smallGeometry reservedImage reservedImage.allocinode g i) ∧
    reservedImage.allocinode.2 = 8 ∧ reservedImage.allocinode.1.allocinode.2 = 8 := by
  refine ⟨reservedImage_fits, reservedImage_exactInodes,
    ⟨0, by decide, 11, by decide, by decide, by decide⟩, ?_, by decide, by decide⟩
  refine allocinode_sets_none smallGeometry_sound reservedImage_fits reservedImage_exactInodes ?_
  rintro ⟨g, hg, -, i, hi, hset, hbit, huse⟩
  obtain rfl : g = 0 := Nat.lt_one_iff.mp hg
  have hlate : 11 ≤ i := by
    have hnumber : 11 < 0 * 16 + i + 1 := huse.2
    omega
  have hclear : reservedImage.inodebit smallGeometry 0 7 = false := by decide
  rw [hset 7 (by omega)] at hclear
  exact absurd hclear (by decide)

end Lyre.Ext2

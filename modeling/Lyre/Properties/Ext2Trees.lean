import Lyre.Properties.Ext2Blocks

/-!
# Trees of blocks that are freed

`ext2fs_freeblocklist` frees a tree of tables from the leaves on, and overwrites each table behind its
entries. Every block of the tree is freed once, and no other one (`freeblocklist_calls`): the tables lie
outside of the metadata that is written, and a table that has been overwritten is none of those that
are still to be read. The induction is on the depth, and on the entries of a table within it.
-/

namespace Lyre.Ext2

open Infra Infra.Bytes Infra.Tables Ext2fs

variable {G : Geometry} {fs fs' : Ext2fs} {b d i j t x left : Nat}
  {entry : Ext2fs → Nat → Ext2fs × List Nat} {r : Ext2fs × List Nat}

/-- A tree whose blocks are distinct blocks of the image, and whose tables are apart from the metadata. -/
structure Tree (G : Geometry) (fs : Ext2fs) (d b : Nat) : Prop where
  nodup : (blocks fs.word (G.blksize / 4) d b).Nodup
  valid : ∀ t ∈ blocks fs.word (G.blksize / 4) d b, t < G.groups * G.blockspergroup
  outside : ∀ t ∈ tables fs.word (G.blksize / 4) d b, G.DataBlock t

/-- What freeing a tree does: the calls, and what it leaves as it is. -/
structure Freed (G : Geometry) (fs : Ext2fs) (d b : Nat) (r : Ext2fs × List Nat) : Prop where
  fits : Fits G r.1
  calls : r.2.Perm (blocks fs.word (G.blksize / 4) d b)
  kept : ∀ x, G.Outside x → x / G.blksize ∉ tables fs.word (G.blksize / 4) d b →
    r.1.device x = fs.device x

/-- `entry` frees the trees of a depth. -/
def Frees (G : Geometry) (d : Nat) (entry : Ext2fs → Nat → Ext2fs × List Nat) : Prop :=
  ∀ fs b, b ≠ 0 → Fits G fs → Tree G fs d b → Freed G fs d b (entry fs b)

/-! ## Tables -/

namespace Tree

theorem child (h : Tree G fs (d + 1) b) (hb : b ≠ 0) (hi : i < G.blksize / 4) :
    Tree G fs d (fs.word b i) where
  nodup := entry_nodup hb h.nodup hi
  valid := fun t ht => h.valid t (mem_blocks_entry hb hi ht)
  outside := fun t ht => h.outside t (mem_tables_entry hb hi ht)

theorem root (h : Tree G fs d b) (hb : b ≠ 0) : b < G.groups * G.blockspergroup :=
  h.valid b (root_mem hb)

theorem root_outside (h : Tree G fs (d + 1) b) (hb : b ≠ 0) : G.DataBlock b :=
  h.outside b (by rw [tables_succ hb]; exact List.mem_cons_self)

theorem congr (h : Tree G fs d b) (hf : Fits G fs) (hf' : Fits G fs')
    (hsame : ∀ t ∈ tables fs.word (G.blksize / 4) d b, ∀ x, x / G.blksize = t →
      fs'.device x = fs.device x) :
    blocks fs'.word (G.blksize / 4) d b = blocks fs.word (G.blksize / 4) d b ∧
      tables fs'.word (G.blksize / 4) d b = tables fs.word (G.blksize / 4) d b ∧ Tree G fs' d b := by
  have hword : ∀ t ∈ tables fs.word (G.blksize / 4) d b, ∀ i < G.blksize / 4,
      fs'.word t i = fs.word t i := fun t ht i hi => word_congr hf hf' hi (hsame t ht)
  have hblocks := blocks_congr hword
  have htables := tables_congr hword
  refine ⟨hblocks, htables, ?_, ?_, ?_⟩
  · rw [hblocks]
    exact h.nodup
  · rw [hblocks]
    exact h.valid
  · rw [htables]
    exact h.outside

end Tree

/-! ## One block -/

theorem freeblock_valid (hG : G.Sound) (h : Fits G fs) (hb : b < G.groups * G.blockspergroup) :
    BlockChange G fs (b / G.blockspergroup) (b % G.blockspergroup) false (fs.freeblock b) := by
  have hi := Nat.mod_lt b hG.blockspergroup.1
  have hg : b / G.blockspergroup < G.groups := by rwa [Nat.div_lt_iff_lt_mul hG.blockspergroup.1]
  have hchange := freeblock_change hG h hg hi
  rwa [show b / G.blockspergroup * G.blockspergroup + b % G.blockspergroup = b by
    rw [Nat.mul_comm]; exact Nat.div_add_mod b _] at hchange

theorem frees_block (hG : G.Sound) : Frees G 0 fun fs block => (fs.freeblock block, [block]) := by
  intro fs b hb h htree
  have hchange := freeblock_valid hG h (htree.root hb)
  refine ⟨hchange.fits, ?_, fun x hx _ => hchange.outside x hx⟩
  rw [blocks, if_neg hb]

theorem Fits.fill (h : Fits G fs) (hout : G.DataBlock b) :
    Fits G { fs with device := fill fs.device (b * fs.blksize) fs.blksize } := by
  refine h.congr rfl rfl (rfl_static _) fun g hg k hk => ?_
  refine fill_sameOff _ _ _ _ fun hin => ?_
  rw [h.blksize] at hin
  refine hout _ (Nat.div_eq_of_lt_le hin.1 (by rw [Nat.add_mul, Nat.one_mul]; exact hin.2)) (.desc g) hg
    ⟨Nat.le_add_right _ _, ?_⟩
  have hlen : G.length (.desc g) = 32 := rfl
  omega

theorem Fits.fill_kept (h : Fits G fs) (hne : x / G.blksize ≠ b) :
    Bytes.fill fs.device (b * fs.blksize) fs.blksize x = fs.device x := by
  refine fill_sameOff _ _ _ _ fun hin => hne ?_
  rw [h.blksize] at hin
  exact Nat.div_eq_of_lt_le hin.1 (by rw [Nat.add_mul, Nat.one_mul]; exact hin.2)

/-! ## The entries of a table -/

/-- The entries from `i` on are freed. In `fs'` the tables below them are as they were in `fs`, in which
the table itself was read. -/
theorem freeEntries_frees (hentry : Frees G d entry) (hb : b ≠ 0) (h : Fits G fs)
    (htree : Tree G fs (d + 1) b) (hf' : Fits G fs') (hleft : i + left ≤ G.blksize / 4)
    (hsame : ∀ j, i ≤ j → j < i + left → ∀ t ∈ tables fs.word (G.blksize / 4) d (fs.word b j),
      ∀ x, x / G.blksize = t → fs'.device x = fs.device x) :
    Fits G (freeEntries entry (fs.word b) left i fs').1 ∧
      (freeEntries entry (fs.word b) left i fs').2.Perm
        ((List.range' i left).flatMap fun j => blocks fs.word (G.blksize / 4) d (fs.word b j)) ∧
      ∀ x, G.Outside x → (∀ j, i ≤ j → j < i + left →
          x / G.blksize ∉ tables fs.word (G.blksize / 4) d (fs.word b j)) →
        (freeEntries entry (fs.word b) left i fs').1.device x = fs'.device x := by
  induction left generalizing i fs' with
  | zero => exact ⟨hf', List.Perm.nil, fun _ _ _ => rfl⟩
  | succ left ih =>
    rw [freeEntries, List.range'_succ, List.flatMap_cons]
    by_cases hhole : fs.word b i = 0
    · rw [if_pos hhole, hhole, blocks_zero, List.nil_append]
      obtain ⟨hfits, hcalls, hkept⟩ := ih (i := i + 1) hf' (by omega)
        fun j hj hj' => hsame j (by omega) (by omega)
      exact ⟨hfits, hcalls, fun x hx hnot => hkept x hx fun j hj hj' => hnot j (by omega) (by omega)⟩
    · rw [if_neg hhole]
      have hchild := htree.child hb (show i < G.blksize / 4 by omega)
      obtain ⟨hblocks, htables, hchild'⟩ := hchild.congr h hf' (hsame i (Nat.le_refl i) (by omega))
      have hfreed := hentry fs' (fs.word b i) hhole hf' hchild'
      have hcalls := hfreed.calls
      have hkept := hfreed.kept
      rw [hblocks] at hcalls
      rw [htables] at hkept
      -- the tables below the further entries are none of those that have been overwritten
      obtain ⟨hfits, hothers, hrest⟩ := ih (i := i + 1) hfreed.fits (by omega) fun j hj hj' t ht x hx => by
        have hout := htree.outside t (mem_tables_entry hb (show j < G.blksize / 4 by omega) ht) x hx
        rw [hkept x hout ?_, hsame j (by omega) (by omega) t ht x hx]
        intro hin
        rw [hx] at hin
        have heq := entry_inj hb htree.nodup (show i < G.blksize / 4 by omega)
          (show j < G.blksize / 4 by omega) (tables_subset hin) (tables_subset ht)
        omega
      refine ⟨hfits, hcalls.append hothers, fun x hx hnot => ?_⟩
      rw [hrest x hx fun j hj hj' => hnot j (by omega) (by omega),
        hkept x hx (hnot i (Nat.le_refl i) (by omega))]

theorem frees_table (hG : G.Sound) (hentry : Frees G d entry) : Frees G (d + 1) (freetable entry) := by
  intro fs b hb h htree
  obtain ⟨hfits, hcalls, hkept⟩ := freeEntries_frees hentry hb h htree h
    (Nat.le_of_eq (Nat.zero_add _)) fun _ _ _ _ _ _ _ => rfl
  rw [freetable, if_neg hb, h.blksize]
  have hfilled := hfits.fill (htree.root_outside hb)
  have hchange := freeblock_valid hG hfilled (htree.root hb)
  refine ⟨hchange.fits, ?_, fun x hx hnot => ?_⟩
  · rw [blocks_succ hb, List.range_eq_range']
    exact (List.perm_append_singleton b _).trans (hcalls.cons b)
  · rw [tables_succ hb] at hnot
    refine (hchange.outside x hx).trans ((hfits.fill_kept fun heq => hnot ?_).trans
      (hkept x hx fun j _ hj hin => ?_))
    · rw [heq]
      exact List.mem_cons_self
    exact hnot (List.mem_cons_of_mem b (List.mem_flatMap.mpr
      ⟨j, List.mem_range.mpr (by omega), hin⟩))

theorem frees_freeblocklist (hG : G.Sound) (indirs : Nat) :
    Frees G (indirs + 1) (freeblocklist indirs) := by
  induction indirs with
  | zero => exact frees_table hG (frees_block hG)
  | succ indirs ih => exact frees_table hG ih

/-- **Each block of a tree is freed once.** The calls of `ext2fs_freeblock` are the root, the tables and
the data blocks of the tree, each one time, and no other block. -/
theorem freeblocklist_calls (hG : G.Sound) (h : Fits G fs) (indirs : Nat)
    (htree : Tree G fs (indirs + 1) b) :
    (fs.freeblocklist indirs b).2.Perm (blocks fs.word (G.blksize / 4) (indirs + 1) b) ∧
      ∀ t, (fs.freeblocklist indirs b).2.count t =
        if t ∈ blocks fs.word (G.blksize / 4) (indirs + 1) b then 1 else 0 := by
  have hcalls : (fs.freeblocklist indirs b).2.Perm (blocks fs.word (G.blksize / 4) (indirs + 1) b) := by
    by_cases hb : b = 0
    · subst hb
      rw [blocks_zero]
      cases indirs with
      | zero => exact List.Perm.nil
      | succ indirs => exact List.Perm.nil
    · exact (frees_freeblocklist hG indirs fs b hb h htree).calls
  refine ⟨hcalls, fun t => ?_⟩
  rw [hcalls.count_eq]
  split_ifs with hmem
  · exact List.count_eq_one_of_mem htree.nodup hmem
  · exact List.count_eq_zero_of_not_mem hmem

/-- The small image with a table in block 7: it names the blocks 8 and 9, with holes between them. -/
def treeImage : Ext2fs :=
  { smallImage with device := write (write smallDevice (7 * 1024) 4 8) (7 * 1024 + 20) 4 9 }

theorem treeImage_fits : Fits smallGeometry treeImage := by
  refine smallImage_fits.congr rfl rfl (Fits.rfl_static _) fun g hg k hk => ?_
  obtain rfl : g = 0 := Nat.lt_one_iff.mp hg
  have hstart : smallGeometry.start (.desc 0) = 2048 := by decide
  unfold Ext2fs.region
  rw [hstart]
  exact (write_sameOff _ _ _ _ _ (by omega)).trans (write_sameOff _ _ _ _ _ (by omega))

theorem treeImage_blocks : blocks treeImage.word 256 1 7 = [7, 8, 9] := by decide +kernel

theorem treeImage_tree : Tree smallGeometry treeImage 1 7 where
  nodup := by
    rw [show smallGeometry.blksize / 4 = 256 from rfl, treeImage_blocks]
    decide
  valid := by
    rw [show smallGeometry.blksize / 4 = 256 from rfl, treeImage_blocks]
    decide
  outside := fun t ht x hx => by
    obtain rfl : t = 7 := by
      rw [tables_succ (by decide)] at ht
      rcases List.mem_cons.mp ht with heq | hin
      · exact heq
      · obtain ⟨_, -, hnone⟩ := List.mem_flatMap.mp hin
        exact absurd hnone List.not_mem_nil
    have hdiv : x / 1024 = 7 := hx
    exact small_outside (by omega)

theorem freeblocklist_calls_tree : (treeImage.freeblocklist 0 7).2.Perm [7, 8, 9] := by
  have hcalls := (freeblocklist_calls smallGeometry_sound treeImage_fits 0 treeImage_tree).1
  rwa [show smallGeometry.blksize / 4 = 256 from rfl, treeImage_blocks] at hcalls

end Lyre.Ext2

import Lyre.Infra.Blockwise
import Lyre.Fs.Ext2
import Lyre.Properties.Ext2Map

/-!
# What `ext2fs_inoderead` copies

Every turn of its loop replaces `off` by the offset in the block, and the next one adds `head` to
that. A turn reads the right bytes only if `off` is still what it was (`readTurn`), which is so for
the first turn; for the second one if the range begins in the first block; and for further ones if it
begins at 0 (`inoderead_copies_iff`).
-/

namespace Lyre.Ext2

open Infra.Bytes

variable {fs fs' : Ext2fs} {inode : Inode} {buf buf₀ : Mem} {i off count head n : Nat}

/-- Where the bytes of a file lie on the device. -/
def Ext2fs.bytepos (fs : Ext2fs) (inode : Inode) (p : Nat) : Nat :=
  place fs.blksize (fun i => fs.inodegetblock inode i * fs.blksize) p

/-- The number of blocks of a file. -/
def Ext2fs.filesize (fs : Ext2fs) (inode : Inode) : Nat :=
  (inode.inodesize + (fs.blksize - 1)) / fs.blksize

/-- An inode of a well-formed image: all its blocks and tables are distinct, and all blocks of the
file are there, below the triple range. -/
structure Ext2fs.WellFormed (fs : Ext2fs) (inode : Inode) : Prop where
  mounted : fs.Mounted
  distinct : (fs.blockmap inode).all.Nodup
  mapped : ∀ i < fs.filesize inode, (fs.blockmap inode).get i ≠ 0
  below : fs.filesize inode ≤ 12 + fs.blksize / 4 + (fs.blksize / 4) ^ 2
  numbers : fs.filesize inode ≤ 2 ^ 32
  size : inode.inodesize < 2 ^ 63

/-- Another content of the data blocks of a file. -/
structure Ext2fs.SameButData (fs : Ext2fs) (inode : Inode) (fs' : Ext2fs) : Prop where
  sb : fs'.sb = fs.sb
  blksize : fs'.blksize = fs.blksize
  device : ∀ x, (∀ i < fs.filesize inode, (fs.blockmap inode).get i * fs.blksize ≤ x →
    x < (fs.blockmap inode).get i * fs.blksize + fs.blksize → False) → fs'.device x = fs.device x

namespace Ext2fs.WellFormed

theorem lt_filesize (h : fs.WellFormed inode) {p : Nat} (hp : p < inode.inodesize) :
    p / fs.blksize < fs.filesize inode := by
  have hpos := h.mounted.blksize_pos
  rw [Nat.div_lt_iff_lt_mul hpos]
  have := Nat.lt_div_mul_add (a := inode.inodesize + (fs.blksize - 1)) hpos
  unfold Ext2fs.filesize
  omega

theorem getblock (h : fs.WellFormed inode) (hi : i < fs.filesize inode) :
    fs.inodegetblock inode i = (fs.blockmap inode).get i :=
  getblock_eq_of_mapped h.mounted (Nat.lt_of_lt_of_le hi h.below) (h.mapped i hi)

theorem lt_maxblocks (h : fs.WellFormed inode) (hi : i < fs.filesize inode) :
    i < maxblocks (fs.blksize / 4) := by
  have := h.below
  unfold maxblocks
  omega

theorem get_inj {j : Nat} (h : fs.WellFormed inode) (hi : i < fs.filesize inode)
    (hj : j < fs.filesize inode) (heq : (fs.blockmap inode).get i = (fs.blockmap inode).get j) :
    i = j :=
  BlockMap.get_inj h.distinct (h.lt_maxblocks hi) (h.lt_maxblocks hj) (h.mapped i hi) heq

end Ext2fs.WellFormed

theorem block_apart {b b' bs : Nat} (hne : b ≠ b') : Apart (b * bs) bs (b' * bs) bs := by
  have key : ∀ {b b' : Nat}, b < b' → b * bs + bs ≤ b' * bs := by
    intro b b' hlt
    have := Nat.mul_le_mul_right bs hlt
    rwa [Nat.succ_mul] at this
  rcases Nat.lt_or_gt_of_ne hne with hlt | hgt
  · exact Or.inl (key hlt)
  · exact Or.inr (key hgt)

namespace Ext2fs.SameButData

theorem word {t k : Nat} (h : fs.WellFormed inode) (hs : fs.SameButData inode fs')
    (ht : (fs.blockmap inode).IsTable t) (hk : k < fs.blksize / 4) : fs'.word t k = fs.word t k := by
  have hbs := h.mounted.blksize_eq
  rw [Ext2fs.word, Ext2fs.word, hs.blksize]
  refine read_congr fun x hx hx' => hs.device x fun i hi hle hlt => ?_
  have hne : t ≠ (fs.blockmap inode).get i := by
    rintro rfl
    exact BlockMap.get_not_table h.distinct (h.lt_maxblocks hi) (h.mapped i hi) ht
  have := @block_apart _ _ fs.blksize hne
  unfold Apart at this
  omega

theorem get (h : fs.WellFormed inode) (hs : fs.SameButData inode fs')
    (hi : i < maxblocks (fs.blksize / 4)) :
    (fs'.blockmap inode).get i = (fs.blockmap inode).get i := by
  have hwidth : (fs'.blockmap inode).width = fs.blksize / 4 := by
    rw [← hs.blksize]
    rfl
  exact BlockMap.get_congr (fun _ _ => rfl) hwidth (fun t ht k hk => hs.word h ht hk) hi

theorem mounted (hs : fs.SameButData inode fs') (h : fs.Mounted) : fs'.Mounted :=
  ⟨by rw [hs.blksize, hs.sb, h.blksize], by rw [hs.sb]; exact h.shift⟩

theorem getblock (h : fs.WellFormed inode) (hs : fs.SameButData inode fs')
    (hi : i < fs.filesize inode) : fs'.inodegetblock inode i = fs.inodegetblock inode i := by
  have hget := hs.get h (h.lt_maxblocks hi)
  rw [h.getblock hi, ← hget]
  refine getblock_eq_of_mapped (hs.mounted h.mounted) ?_ (by rw [hget]; exact h.mapped i hi)
  rw [hs.blksize]
  exact Nat.lt_of_lt_of_le hi h.below

end Ext2fs.SameButData

theorem Ext2fs.Mounted.blksize_le (h : fs.Mounted) : fs.blksize ≤ 2 ^ 30 := by
  have := Nat.pow_le_pow_right (show 0 < 2 by decide) h.shift
  rw [h.blksize]
  omega

namespace Ext2fs.WellFormed

theorem inodesize_le (h : fs.WellFormed inode) : inode.inodesize ≤ fs.filesize inode * fs.blksize := by
  have hpos := h.mounted.blksize_pos
  have := Nat.lt_div_mul_add (a := inode.inodesize + (fs.blksize - 1)) hpos
  unfold Ext2fs.filesize
  omega

theorem bytepos_inj {p q : Nat} (h : fs.WellFormed inode) (hp : p < inode.inodesize)
    (hq : q < inode.inodesize) (heq : fs.bytepos inode p = fs.bytepos inode q) : p = q := by
  refine place_inj h.mounted.blksize_pos (fun hne => ?_) heq
  rw [h.getblock (h.lt_filesize hp), h.getblock (h.lt_filesize hq)]
  exact block_apart fun hget => hne (h.get_inj (h.lt_filesize hp) (h.lt_filesize hq) hget)

end Ext2fs.WellFormed

theorem Ext2fs.SameButData.bytepos {p : Nat} (h : fs.WellFormed inode)
    (hs : fs.SameButData inode fs') (hp : p < inode.inodesize) :
    fs'.bytepos inode p = fs.bytepos inode p := by
  rw [Ext2fs.bytepos, Ext2fs.bytepos, place, place, hs.blksize, hs.getblock h (h.lt_filesize hp)]

/-! ## The turns -/

/-- How many bytes a turn reads. -/
def Ext2fs.readsize (fs : Ext2fs) (off head count : Nat) : Nat :=
  if fs.blksize - (off + head) % fs.blksize < count - head then
    fs.blksize - (off + head) % fs.blksize
  else count - head

theorem readsize_spec (hpos : 0 < fs.blksize) (hhead : head < count) :
    0 < fs.readsize off head count ∧ head + fs.readsize off head count ≤ count ∧
      (off + head) % fs.blksize + fs.readsize off head count ≤ fs.blksize ∧
      (head + fs.readsize off head count < count →
        (off + head) % fs.blksize + fs.readsize off head count = fs.blksize) := by
  have hmod := Nat.mod_lt (off + head) hpos
  unfold Ext2fs.readsize
  split_ifs <;> omega

theorem readLoop_done (left : Nat) (h : count ≤ head) :
    fs.inodereadLoop inode count left off head buf = buf := by
  cases left with
  | zero => rfl
  | succ left => rw [Ext2fs.inodereadLoop, if_neg (Nat.not_lt.mpr h)]

theorem readLoop_turn (left : Nat) (h : fs.Mounted) (hoff : off + head < 2 ^ 32 * fs.blksize)
    (hhead : head < count) :
    fs.inodereadLoop inode count (left + 1) off head buf =
      fs.inodereadLoop inode count left ((off + head) % fs.blksize)
        (head + fs.readsize off head count)
        (put buf head (fs.readsize off head count) fun k =>
          fs.device (fs.bytepos inode (off + head) + k)) := by
  have hle := Nat.mul_le_mul_left (2 ^ 32) h.blksize_le
  have hdiv : (off + head) / fs.blksize < 2 ^ 32 := (Nat.div_lt_iff_lt_mul h.blksize_pos).mpr hoff
  rw [Ext2fs.inodereadLoop, if_pos hhead]
  simp only [u64_of_lt (show off + head < 2 ^ 64 by omega),
    show u32 ((off + head) / fs.blksize) = (off + head) / fs.blksize from Nat.mod_eq_of_lt hdiv]
  rfl

theorem readLoop_below {k : Nat} (left : Nat) (hk : k < head) :
    (fs.inodereadLoop inode count left off head buf) k = buf k := by
  induction left generalizing off head buf with
  | zero => rfl
  | succ left ih =>
    rw [Ext2fs.inodereadLoop]
    split_ifs with hhead
    · simp only
      rw [ih (by omega), put_sameOff _ _ _ _ k (by omega)]
    · rfl

/-- A turn for which `off` is what it was reads the right bytes. -/
theorem gathered_turn (hpos : 0 < fs.blksize) (hhead : head < count)
    (h : Gathered fs.device buf₀ buf (fun k => fs.bytepos inode (off + k)) head) :
    Gathered fs.device buf₀ (put buf head (fs.readsize off head count) fun k =>
        fs.device (fs.bytepos inode (off + head) + k))
      (fun k => fs.bytepos inode (off + k)) (head + fs.readsize off head count) := by
  obtain ⟨hsize, -, hin, -⟩ := @readsize_spec _ off _ _ hpos hhead
  refine h.step fun k hk => ?_
  rw [← Nat.add_assoc]
  exact place_add (by omega)

theorem readLoop_zero (h : fs.Mounted) (hcount : count ≤ 2 ^ 32 * fs.blksize) {left : Nat}
    (hleft : count ≤ head + left) (hhead : head ≤ count)
    (hstart : head < count → head % fs.blksize = 0)
    (hg : Gathered fs.device buf₀ buf (fun k => fs.bytepos inode (0 + k)) head) :
    Gathered fs.device buf₀ (fs.inodereadLoop inode count left 0 head buf)
      (fun k => fs.bytepos inode (0 + k)) count := by
  induction left generalizing head buf with
  | zero =>
    obtain rfl : head = count := by omega
    exact hg
  | succ left ih =>
    rcases Nat.eq_or_lt_of_le hhead with rfl | hlt
    · rw [readLoop_done _ (Nat.le_refl head)]
      exact hg
    · obtain ⟨hsize, hle, -, hend⟩ := @readsize_spec _ 0 _ _ h.blksize_pos hlt
      have hmod := hstart hlt
      rw [readLoop_turn left h (by omega) hlt, Nat.zero_add, hmod]
      have hturn := gathered_turn h.blksize_pos hlt hg
      rw [Nat.zero_add] at hturn hend
      refine ih (by omega) hle (fun hlt' => ?_) hturn
      rw [hmod, Nat.zero_add] at hend
      rw [hend hlt', Nat.add_mod_right, hmod]

/-! ## Which ranges are read -/

/-- The range is behind the file, or the sum of offset and count does not wrap and the bytes that are
there are in one block, or in the first two of the file, or are read from 0 on. -/
def Ext2fs.Readable (fs : Ext2fs) (inode : Inode) (off count : Nat) : Prop :=
  off ≤ inode.inodesize → off + count < 2 ^ 64 ∧
    (fs.blksize - off % fs.blksize < min count (inode.inodesize - off) → off < fs.blksize) ∧
    (2 * fs.blksize - off % fs.blksize < min count (inode.inodesize - off) → off = 0)

/-- Whatever the data blocks hold, the bytes of the range that are in the file are copied, and their
number is returned. -/
def Ext2fs.ReadsRight (fs : Ext2fs) (inode : Inode) (off count : Nat) : Prop :=
  ∀ fs', fs.SameButData inode fs' → ∀ buf,
    (fs'.inoderead inode buf off count).2 = min count (inode.inodesize - off) ∧
    Gathered fs'.device buf (fs'.inoderead inode buf off count).1
      (fun k => fs'.bytepos inode (off + k)) (min count (inode.inodesize - off))

theorem inoderead_eq (hoff : off ≤ inode.inodesize) (hwrap : off + count < 2 ^ 64) :
    fs.inoderead inode buf off count =
      (fs.inodereadLoop inode (min count (inode.inodesize - off))
        (min count (inode.inodesize - off)) off 0 buf, min count (inode.inodesize - off)) := by
  have hmin : (if inode.inodesize < u64 (off + count) then inode.inodesize - off else count) =
      min count (inode.inodesize - off) := by
    rw [u64_of_lt hwrap]
    split_ifs <;> omega
  rw [Ext2fs.inoderead, if_neg (Nat.not_lt.mpr hoff)]
  simp only [hmin]

theorem inoderead_right (h : fs.Mounted) (hsize : inode.inodesize ≤ 2 ^ 32 * fs.blksize)
    (hr : fs.Readable inode off count) :
    (fs.inoderead inode buf off count).2 = min count (inode.inodesize - off) ∧
    Gathered fs.device buf (fs.inoderead inode buf off count).1
      (fun k => fs.bytepos inode (off + k)) (min count (inode.inodesize - off)) := by
  have hpos := h.blksize_pos
  rcases Nat.lt_or_ge inode.inodesize off with hbehind | hoff
  · rw [Ext2fs.inoderead, if_pos hbehind, Nat.sub_eq_zero_of_le (Nat.le_of_lt hbehind), Nat.min_zero]
    exact ⟨rfl, .zero⟩
  obtain ⟨hwrap, hfirst, hsecond⟩ := hr hoff
  rw [inoderead_eq hoff hwrap]
  refine ⟨rfl, ?_⟩
  obtain ⟨n, hn⟩ : ∃ n, n = min count (inode.inodesize - off) := ⟨_, rfl⟩
  rw [← hn] at hfirst hsecond ⊢
  rcases Nat.eq_zero_or_pos off with rfl | hoff'
  · exact readLoop_zero h (by omega) (by omega) (Nat.zero_le n) (fun _ => Nat.zero_mod _) .zero
  rcases Nat.eq_zero_or_pos n with rfl | hn'
  · exact .zero
  -- the first turn
  have hmod := Nat.mod_lt off hpos
  obtain ⟨left, rfl⟩ : ∃ left, n = left + 1 := ⟨n - 1, by omega⟩
  obtain ⟨hsize₁, hle₁, -, hend₁⟩ := @readsize_spec fs off _ _ hpos hn'
  have hturn₁ := @gathered_turn _ inode _ _ off _ _ hpos hn' (@Gathered.zero fs.device buf _)
  rw [readLoop_turn left h (by omega) hn']
  simp only [Nat.add_zero, Nat.zero_add] at hle₁ hend₁ hturn₁ ⊢
  rcases Nat.eq_or_lt_of_le hle₁ with hall | hmore
  · rw [readLoop_done _ (Nat.le_of_eq hall.symm)]
    rwa [hall] at hturn₁ ⊢
  -- the second one
  have hblock := hend₁ hmore
  have hlt := hfirst (by omega)
  have hsame : off % fs.blksize = off := Nat.mod_eq_of_lt hlt
  rw [hsame]
  obtain ⟨left, rfl⟩ : ∃ left', left = left' + 1 := ⟨left - 1, by omega⟩
  rw [readLoop_turn left h (by omega) hmore]
  have hturn₂ := @gathered_turn _ _ _ _ off _ _ hpos hmore hturn₁
  obtain ⟨hsize₂, hle₂, -, hend₂⟩ := @readsize_spec fs off _ _ hpos hmore
  rcases Nat.eq_or_lt_of_le hle₂ with hall | hmore'
  · rw [readLoop_done _ (Nat.le_of_eq hall.symm)]
    rwa [hall] at hturn₂
  · have hblock₂ := hend₂ hmore'
    have hzero : off = 0 := hsecond (by
      rw [show off + fs.readsize off 0 (left + 1 + 1) = fs.blksize by omega, Nat.mod_self] at hblock₂
      omega)
    omega

/-! ## Ranges that are not -/

theorem Ext2fs.SameButData.refl (fs : Ext2fs) (inode : Inode) : fs.SameButData inode fs :=
  ⟨rfl, rfl, fun _ _ => rfl⟩

theorem exists_differ {p q : Nat} (h : fs.WellFormed inode) (hp : p < inode.inodesize)
    (hq : q < inode.inodesize) (hne : p ≠ q) : ∃ fs', fs.SameButData inode fs' ∧
      fs'.device (fs'.bytepos inode p) ≠ fs'.device (fs'.bytepos inode q) := by
  have hsucc : ∀ b : BitVec 8, b ≠ b + 1 := by decide
  have hsame : fs.SameButData inode { fs with
      device := Function.update fs.device (fs.bytepos inode q)
        (fs.device (fs.bytepos inode p) + 1) } := by
    refine ⟨rfl, rfl, fun x hx => Function.update_of_ne ?_ _ _⟩
    rintro rfl
    have hmod := Nat.mod_lt q h.mounted.blksize_pos
    refine hx _ (h.lt_filesize hq) ?_ ?_ <;>
    · rw [← h.getblock (h.lt_filesize hq), Ext2fs.bytepos, place]
      omega
  refine ⟨_, hsame, ?_⟩
  rw [hsame.bytepos h hp, hsame.bytepos h hq]
  dsimp only
  rw [Function.update_self, Function.update_of_ne fun heq => hne (h.bytepos_inj hp hq heq)]
  exact hsucc _

theorem readLoop_first (left : Nat) (h : fs.Mounted) (hoff : off + head < 2 ^ 32 * fs.blksize)
    (hhead : head < count) :
    (fs.inodereadLoop inode count (left + 1) off head buf) head =
      fs.device (fs.bytepos inode (off + head)) := by
  obtain ⟨hsize, -⟩ := @readsize_spec _ off _ _ h.blksize_pos hhead
  have hput := put_at buf head (fun k => fs.device (fs.bytepos inode (off + head) + k)) hsize
  rw [Nat.add_zero] at hput
  rw [readLoop_turn left h hoff hhead, readLoop_below left (by omega), hput]
  rfl

theorem Ext2fs.ReadsRight.no_wrap (hr : fs.ReadsRight inode off count) (hsize : inode.inodesize < 2 ^ 63)
    (hcount : count < 2 ^ 64) (hoff : off ≤ inode.inodesize) : off + count < 2 ^ 64 := by
  by_contra hwrap
  have hreturn := (hr fs (.refl fs inode) fs.device).1
  have hu64 : u64 (off + count) = off + count - 2 ^ 64 := by
    unfold u64
    omega
  rw [Ext2fs.inoderead, if_neg (Nat.not_lt.mpr hoff)] at hreturn
  simp only [hu64, if_neg (show ¬ inode.inodesize < off + count - 2 ^ 64 by omega)] at hreturn
  omega

theorem Ext2fs.ReadsRight.second (hr : fs.ReadsRight inode off count) (h : fs.WellFormed inode)
    (hoff : off ≤ inode.inodesize) (hwrap : off + count < 2 ^ 64)
    (hmore : fs.blksize - off % fs.blksize < min count (inode.inodesize - off)) :
    off < fs.blksize := by
  by_contra hge
  have hpos := h.mounted.blksize_pos
  have hmod := Nat.mod_lt off hpos
  have hlimit := Nat.mul_le_mul_right fs.blksize h.numbers
  have hsize := h.inodesize_le
  obtain ⟨fs', hs, hdiffer⟩ := exists_differ h
    (p := off % fs.blksize + (fs.blksize - off % fs.blksize))
    (q := off + (fs.blksize - off % fs.blksize)) (by omega) (by omega) (by omega)
  have hmount := hs.mounted h.mounted
  obtain ⟨-, hg⟩ := hr fs' hs fs'.device
  rw [inoderead_eq hoff hwrap] at hg
  obtain ⟨n, hn⟩ : ∃ n, n = min count (inode.inodesize - off) := ⟨_, rfl⟩
  rw [← hn] at hmore hg
  dsimp only at hg
  obtain ⟨left, rfl⟩ : ∃ left, n = left + 1 + 1 := ⟨n - 2, by omega⟩
  have hfirst : fs'.readsize off 0 (left + 1 + 1) = fs.blksize - off % fs.blksize := by
    rw [Ext2fs.readsize, hs.blksize]
    exact if_pos hmore
  have hmoved := hg.moved _ hmore
  rw [readLoop_turn _ hmount (by rw [hs.blksize]; omega) (by omega), hfirst, Nat.zero_add,
    Nat.add_zero off, hs.blksize,
    readLoop_first left hmount (by rw [hs.blksize]; omega) hmore] at hmoved
  exact hdiffer hmoved

theorem Ext2fs.ReadsRight.third (hr : fs.ReadsRight inode off count) (h : fs.WellFormed inode)
    (hoff : off ≤ inode.inodesize) (hwrap : off + count < 2 ^ 64) (hlt : off < fs.blksize)
    (hmore : 2 * fs.blksize - off % fs.blksize < min count (inode.inodesize - off)) : off = 0 := by
  by_contra hne
  have hpos := h.mounted.blksize_pos
  have hmod : off % fs.blksize = off := Nat.mod_eq_of_lt hlt
  have hlimit := Nat.mul_le_mul_right fs.blksize h.numbers
  have hsize := h.inodesize_le
  rw [hmod] at hmore
  obtain ⟨fs', hs, hdiffer⟩ := exists_differ h (p := 0 + (2 * fs.blksize - off))
    (q := off + (2 * fs.blksize - off)) (by omega) (by omega) (by omega)
  have hmount := hs.mounted h.mounted
  obtain ⟨-, hg⟩ := hr fs' hs fs'.device
  rw [inoderead_eq hoff hwrap] at hg
  obtain ⟨n, hn⟩ : ∃ n, n = min count (inode.inodesize - off) := ⟨_, rfl⟩
  rw [← hn] at hmore hg
  dsimp only at hg
  obtain ⟨left, rfl⟩ : ∃ left, n = left + 1 + 1 + 1 := ⟨n - 3, by omega⟩
  have hfirst : fs'.readsize off 0 (left + 1 + 1 + 1) = fs.blksize - off := by
    rw [Ext2fs.readsize, hs.blksize, Nat.add_zero, hmod]
    exact if_pos (by omega)
  have hblock : off + (fs.blksize - off) = fs.blksize := by omega
  have hsecond : fs'.readsize off (fs.blksize - off) (left + 1 + 1 + 1) = fs.blksize := by
    rw [Ext2fs.readsize, hs.blksize, hblock, Nat.mod_self]
    exact if_pos (by omega)
  have hmoved := hg.moved _ hmore
  rw [readLoop_turn _ hmount (by rw [hs.blksize]; omega) (by omega), hfirst, Nat.zero_add,
    Nat.add_zero off, hs.blksize, hmod, readLoop_turn _ hmount (by rw [hs.blksize]; omega) (by omega),
    hsecond, hs.blksize, hblock, Nat.mod_self,
    show fs.blksize - off + fs.blksize = 2 * fs.blksize - off by omega,
    readLoop_first left hmount (by rw [hs.blksize]; omega) hmore] at hmoved
  exact hdiffer hmoved

/-- An inode with three direct blocks and a size of 3072. -/
def sampleInode : Inode :=
  (((Inode.setBlocks ⟨fun _ => 0⟩ 0 20).setBlocks 1 21).setBlocks 2 22).setInodesize 3072

theorem sampleInode_wellFormed : sampleImage.WellFormed sampleInode :=
  ⟨sampleImage_mounted, by decide, by decide, by decide, by decide, by decide⟩

/-- The bytes 1500 to 2499 are in the blocks 1 and 2 of the file. The second turn reads block 1
again. -/
theorem inoderead_wrong : ¬ sampleImage.ReadsRight sampleInode 1500 1000 := fun hr =>
  absurd (hr.second sampleInode_wellFormed (by decide) (by decide) (by decide)) (by decide)

/-- **Which ranges `ext2fs_inoderead` copies.** -/
theorem inoderead_copies_iff (h : fs.WellFormed inode) (hcount : count < 2 ^ 64) :
    fs.ReadsRight inode off count ↔ fs.Readable inode off count := by
  have hlimit := Nat.mul_le_mul_right fs.blksize h.numbers
  constructor
  · intro hr hoff
    have hwrap := hr.no_wrap h.size hcount hoff
    have hsecond := hr.second h hoff hwrap
    refine ⟨hwrap, hsecond, fun hmore => ?_⟩
    have hmod := Nat.mod_lt off h.mounted.blksize_pos
    exact hr.third h hoff hwrap (hsecond (by omega)) hmore
  · intro hr fs' hs buf
    have hreadable : fs'.Readable inode off count := by
      rw [Ext2fs.Readable, hs.blksize]
      exact hr
    refine inoderead_right (hs.mounted h.mounted) ?_ hreadable
    rw [hs.blksize]
    exact Nat.le_trans h.inodesize_le hlimit

theorem inoderead_copies_iff_sample : sampleImage.ReadsRight sampleInode 100 1500 :=
  (inoderead_copies_iff sampleInode_wellFormed (by decide)).mpr fun _ =>
    ⟨by decide, by decide, by decide⟩

end Lyre.Ext2

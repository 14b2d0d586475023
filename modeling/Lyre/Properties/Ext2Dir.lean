import Lyre.Fs.Ext2Dir
import Lyre.Spec.Directory
import Lyre.Properties.Ext2Write

/-!
# What `ext2fs_createdirentry` inserts

The loop goes from record to record and stops at the first one with enough slack, which is cut down to
its least size. The new record takes the slack, so that the records behind it stay where they are.
-/

namespace Lyre.Ext2

open Infra Infra.Bytes Ext2fs

variable {G : Geometry} {fs : Ext2fs} {parent : Inode} {m m' buf buf' : Mem} {name : List (BitVec 8)}
  {rs : List DirRecord} {a k n v off size need left parentidx newidx dirtype entsize fuel : Nat}

/-- The bytes of a file. -/
def Ext2fs.contents (fs : Ext2fs) (inode : Inode) : Mem := fun k => fs.device (fs.bytepos inode k)

/-! ## Entries in a buffer -/

theorem contracted_eq (buf : Mem) (off : Nat) :
    Lyre.Ext2.contracted buf off = (DirRecord.get buf off).contracted := by
  rw [DirRecord.contracted, DirRecord.get_name_length]
  rfl

theorem entsize_lt (buf : Mem) (off : Nat) : (DirRecord.get buf off).entsize < 2 ^ 16 := read_lt _ 2 _

/-- `available` is the slack of the record. -/
theorem available_eq (h : (DirRecord.get buf off).Valid) :
    available buf off = (DirRecord.get buf off).slack := by
  have hlt := entsize_lt buf off
  have hle := h.contracted
  rw [available, contracted_eq, show Direntry.entsize buf off = (DirRecord.get buf off).entsize from rfl,
    DirRecord.slack, u64]
  omega

theorem setEntsize_sameOff (buf : Mem) (off v : Nat) :
    SameOff buf (Direntry.setEntsize buf off v) (off + 4) 2 := write_sameOff _ _ _ _

theorem get_setEntsize (hv : v < 2 ^ 16) :
    DirRecord.get (Direntry.setEntsize buf off v) off = { DirRecord.get buf off with entsize := v } := by
  have hsame := setEntsize_sameOff buf off v
  have hlen : read (Direntry.setEntsize buf off v) (off + 6) 1 = read buf (off + 6) 1 :=
    read_sameOff hsame (by unfold Apart; omega)
  simp only [DirRecord.get, DirRecord.mk.injEq]
  refine ⟨read_sameOff hsame (by unfold Apart; omega), ?_, read_sameOff hsame (by unfold Apart; omega), ?_⟩
  · exact (read_write _ _ 2 v).trans (Nat.mod_eq_of_lt hv)
  · rw [hlen]
    exact List.map_congr_left fun k _ => hsame _ (by omega)

theorem make_sameOff (buf : Mem) (off newidx entsize dirtype : Nat) (name : List (BitVec 8)) :
    SameOff buf (Direntry.make buf off newidx entsize dirtype name) off
      (Direntry.size + (name.length + 1)) := by
  intro x hx
  unfold Direntry.size at hx
  simp only [Direntry.make, Direntry.size]
  rw [put_sameOff _ _ _ _ x (by omega), write_sameOff _ _ _ _ x (by omega),
    write_sameOff _ _ _ _ x (by omega), write_sameOff _ _ _ _ x (by omega),
    write_sameOff _ _ _ _ x (by omega), fill_sameOff _ _ _ x (by omega)]

theorem get_make (hidx : newidx < 2 ^ 32) (hsize : entsize < 2 ^ 16) (htype : dirtype < 2 ^ 8)
    (hname : name.length < 2 ^ 8) :
    DirRecord.get (Direntry.make buf off newidx entsize dirtype name) off =
      ⟨newidx, entsize, dirtype, name⟩ := by
  obtain ⟨b₁, hb₁⟩ : ∃ b, b = fill buf off Direntry.size := ⟨_, rfl⟩
  obtain ⟨b₂, hb₂⟩ : ∃ b, b = write b₁ off 4 newidx := ⟨_, rfl⟩
  obtain ⟨b₃, hb₃⟩ : ∃ b, b = write b₂ (off + 4) 2 entsize := ⟨_, rfl⟩
  obtain ⟨b₄, hb₄⟩ : ∃ b, b = write b₃ (off + 6) 1 name.length := ⟨_, rfl⟩
  obtain ⟨b₅, hb₅⟩ : ∃ b, b = write b₄ (off + 7) 1 dirtype := ⟨_, rfl⟩
  have hmake : Direntry.make buf off newidx entsize dirtype name =
      put b₅ (off + 8) (name.length + 1) fun k => name.getD k 0 := by
    rw [hb₅, hb₄, hb₃, hb₂, hb₁]
    rfl
  -- a field is not touched by the writes behind its own
  have hlast : ∀ b n, b + n ≤ off + 8 →
      read (Direntry.make buf off newidx entsize dirtype name) b n = read b₅ b n := fun b n hb => by
    rw [hmake]
    exact read_sameOff (put_sameOff _ _ _ _) (by unfold Apart; omega)
  have h5 : ∀ b n, b + n ≤ off + 7 → read b₅ b n = read b₄ b n := fun b n hb => by
    rw [hb₅]
    exact read_sameOff (write_sameOff _ _ _ _) (by unfold Apart; omega)
  have h4 : ∀ b n, b + n ≤ off + 6 → read b₄ b n = read b₃ b n := fun b n hb => by
    rw [hb₄]
    exact read_sameOff (write_sameOff _ _ _ _) (by unfold Apart; omega)
  have hlen : read (Direntry.make buf off newidx entsize dirtype name) (off + 6) 1 = name.length := by
    rw [hlast _ _ (by omega), h5 _ _ (by omega), hb₄, read_write, Nat.mod_eq_of_lt (by omega)]
  simp only [DirRecord.get, DirRecord.mk.injEq]
  refine ⟨?_, ?_, ?_, ?_⟩
  · rw [hlast _ _ (by omega), h5 _ _ (by omega), h4 _ _ (by omega), hb₃,
      read_sameOff (write_sameOff _ _ _ _) (by unfold Apart; omega), hb₂, read_write,
      Nat.mod_eq_of_lt (by omega)]
  · rw [hlast _ _ (by omega), h5 _ _ (by omega), h4 _ _ (by omega), hb₃, read_write,
      Nat.mod_eq_of_lt (by omega)]
  · rw [hlast _ _ (by omega), hb₅, read_write, Nat.mod_eq_of_lt (by omega)]
  · rw [hlen]
    refine List.ext_getElem (by rw [List.length_map, List.length_range]) fun k _ hk => ?_
    rw [List.getElem_map, List.getElem_range, hmake, put_at _ _ _ (by omega),
      List.getD_eq_getElem name 0 hk]

/-! ## The search -/

theorem entsize_of_full (hneed : need + 2 ^ 9 ≤ 2 ^ 64) (h : available buf off < need) :
    8 ≤ Direntry.entsize buf off := by
  have hlen : Direntry.namelen buf off < 2 ^ 8 := read_lt _ 1 _
  have hent : Direntry.entsize buf off < 2 ^ 16 := entsize_lt buf off
  have hcon : Lyre.Ext2.contracted buf off = (8 + Direntry.namelen buf off + 3) / 4 * 4 := rfl
  unfold available u64 at h
  omega

/-- **The search is first fit.** -/
theorem slackLoop_spec (h : direntries.Spans buf off size rs) (hleft : size ≤ off + left) :
    ((slackLoop buf size need left off).2 = false ∧ ∀ r ∈ rs, r.slack < need) ∨
    ∃ pre r post b, rs = pre ++ r :: post ∧ (∀ q ∈ pre, q.slack < need) ∧ need ≤ r.slack ∧
      slackLoop buf size need left off = (b, true) ∧ direntries.Spans buf off b pre ∧
      direntries.Spans buf b size (r :: post) := by
  induction rs generalizing off left with
  | nil =>
    obtain rfl : off = size := h
    left
    refine ⟨?_, fun r hr => absurd hr List.not_mem_nil⟩
    cases left with
    | zero => rfl
    | succ left => rw [slackLoop, if_neg (Nat.lt_irrefl off)]
  | cons r rs ih =>
    have hlt := h.lt
    obtain ⟨left, rfl⟩ : ∃ left', left = left' + 1 := ⟨left - 1, by omega⟩
    obtain ⟨hget, hvalid, hrest⟩ := id h
    have havailable := @available_eq buf off (by rw [show DirRecord.get buf off = r from hget]; exact hvalid)
    rw [show DirRecord.get buf off = r from hget] at havailable
    rw [slackLoop, if_pos hlt]
    simp only [havailable]
    split_ifs with hroom
    · exact .inr ⟨[], r, rs, off, rfl, fun q hq => absurd hq List.not_mem_nil, hroom, rfl, rfl, h⟩
    · have hwidth : Direntry.entsize buf off = r.entsize := congrArg DirRecord.entsize hget
      have hpos : 0 < r.entsize := direntries.width_pos r hvalid
      rw [hwidth]
      rcases ih hrest (by change size ≤ off + r.entsize + left; omega) with ⟨hnone, hall⟩ | ⟨pre, q, post, b, rfl, hpre, hq, hloop, hspans, hpost⟩
      · refine .inl ⟨hnone, fun q hq => ?_⟩
        rcases List.mem_cons.mp hq with rfl | hq
        · exact Nat.lt_of_not_le hroom
        · exact hall q hq
      · refine .inr ⟨r :: pre, q, post, b, rfl, fun p hp => ?_, hq, hloop, ⟨hget, hvalid, hspans⟩, hpost⟩
        rcases List.mem_cons.mp hp with rfl | hp
        · exact Nat.lt_of_not_le hroom
        · exact hpre p hp

/-! ## The buffer that is written -/

/-- The record is cut down, and the new one has its slack. -/
def DirRecord.divide (r new : DirRecord) : List DirRecord := [r.contract, { new with entsize := r.slack }]

theorem required_room (name : List (BitVec 8)) :
    8 + name.length + 1 ≤ required name ∧ (8 + name.length + 3) / 4 * 4 ≤ required name := by
  unfold required Direntry.size
  omega

theorem spans_divide {r : DirRecord} (hget : DirRecord.get buf off = r) (hvalid : r.Valid)
    (hidx : newidx < 2 ^ 32) (htype : dirtype < 2 ^ 8) (hname : name.length < 2 ^ 8)
    (hroom : required name ≤ r.slack) :
    SameOff buf (Direntry.make (Direntry.setEntsize buf off r.contracted) (off + r.contracted) newidx
        r.slack dirtype name) off r.entsize ∧
      direntries.Spans (Direntry.make (Direntry.setEntsize buf off r.contracted) (off + r.contracted)
        newidx r.slack dirtype name) off (off + r.entsize) (r.divide ⟨newidx, 0, dirtype, name⟩) := by
  have hsum := hvalid.contracted_add_slack
  have hcon := r.le_contracted
  have hlt : r.entsize < 2 ^ 16 := hget ▸ entsize_lt buf off
  obtain ⟨hfit, hleast⟩ := required_room name
  have hfirst := setEntsize_sameOff buf off r.contracted
  have hsecond := make_sameOff (Direntry.setEntsize buf off r.contracted) (off + r.contracted) newidx
    r.slack dirtype name
  unfold Direntry.size at hsecond
  refine ⟨fun x hx => ?_, ?_, r.contract_valid, ?_, ⟨hvalid.slack_dvd, ?_⟩, ?_⟩
  · rw [hsecond x (by omega), hfirst x (by omega)]
  · -- the header and the name of the record are in front of the new one
    have hset := @get_setEntsize buf _ off (show r.contracted < 2 ^ 16 by omega)
    rw [hget] at hset
    refine (DirRecord.get_congr fun x hx hx' => hsecond x ?_).trans hset
    rw [hset] at hx'
    change x < off + 8 + r.name.length at hx'
    omega
  · exact get_make hidx (by omega) htype hname
  · exact Nat.le_trans hleast hroom
  · change off + r.contracted + r.slack = off + r.entsize
    omega

/-! ## The call -/

theorem inoderead_whole {inode : Inode} (h : fs.Mounted)
    (hsize : inode.inodesize ≤ 2 ^ 32 * fs.blksize) (hk : k < inode.inodesize) :
    (fs.inoderead inode buf 0 inode.inodesize).1 k = fs.contents inode k := by
  have hle := Nat.mul_le_mul_left (2 ^ 32) h.blksize_le
  have hreadable : fs.Readable inode 0 inode.inodesize := fun _ =>
    ⟨by omega, fun _ => h.blksize_pos, fun _ => rfl⟩
  have hmoved := (@inoderead_right _ _ buf _ _ h hsize hreadable).2.moved k
  rw [Nat.sub_zero, Nat.min_self, Nat.zero_add] at hmoved
  exact hmoved hk

theorem createdirentry_full (hb : buf' = (fs.inoderead parent buf 0 parent.inodesize).1)
    (h : (slackLoop buf' parent.inodesize (required name) parent.inodesize 0).2 = false) (b : Mem) :
    (fs.createdirentry parent parentidx newidx dirtype name buf b).2.2 = -1 := by
  rw [createdirentry, ← hb, h, if_neg Bool.false_ne_true]
  rfl

/-- The record at `off` has room. -/
theorem createdirentry_room (hb : buf' = (fs.inoderead parent buf 0 parent.inodesize).1)
    (h : slackLoop buf' parent.inodesize (required name) parent.inodesize 0 = (off, true)) (b : Mem) :
    fs.createdirentry parent parentidx newidx dirtype name buf b =
      fs.splitdirentry parent parentidx newidx dirtype name buf' off := by
  rw [createdirentry, ← hb, h, if_pos rfl]

/-- The new record is behind the first one with room, and takes its slack. In the image, nothing
changes but the bytes of the directory, and its inode is what it was. -/
structure Inserts (G : Geometry) (fs : Ext2fs) (parent : Inode) (parentidx : Nat) (new : DirRecord)
    (pre : List DirRecord) (r : DirRecord) (post : List DirRecord) (result : Ext2fs × Inode × Int) :
    Prop where
  first : ∀ q ∈ pre, q.slack < required new.name
  room : required new.name ≤ r.slack
  records : direntries.Spans (result.1.contents parent) 0 parent.inodesize (pre ++ (r.divide new ++ post))
  returned : result.2.2 = 0
  inode : result.2.1 = parent
  entry : ∀ k < Inode.size, result.1.region G (G.inodeRegion parentidx) k = parent.raw k
  fits : Fits G result.1
  sb : result.1.sb = fs.sb
  kept : ∀ x, ¬ G.InInode parentidx x → (∀ k < parent.inodesize, x ≠ fs.bytepos parent k) →
    result.1.device x = fs.device x
  places : ∀ k < parent.inodesize, result.1.bytepos parent k = fs.bytepos parent k

theorem createdirentry_cases (hG : G.Sound) (hf : Fits G fs) (hidx : G.IsInode parentidx)
    (hp : Placed G fs parent parentidx 0 parent.inodesize)
    (hrs : direntries.Spans (fs.contents parent) 0 parent.inodesize rs)
    (hnew : newidx < 2 ^ 32) (htype : dirtype < 2 ^ 8) (hname : name.length < 2 ^ 8) :
    ((fs.createdirentry parent parentidx newidx dirtype name buf buf').2.2 = -1 ∧
      ∀ r ∈ rs, r.slack < required name) ∨
    ∃ pre r post, rs = pre ++ r :: post ∧ Inserts G fs parent parentidx ⟨newidx, 0, dirtype, name⟩ pre r
      post (fs.createdirentry parent parentidx newidx dirtype name buf buf') := by
  obtain ⟨b, hb⟩ : ∃ b, b = (fs.inoderead parent buf 0 parent.inodesize).1 := ⟨_, rfl⟩
  have hnum := hp.numbers
  rw [Nat.zero_add] at hnum
  have hread : ∀ k < parent.inodesize, b k = fs.contents parent k := fun k hk => by
    rw [hb]
    exact inoderead_whole hf.mounted hnum hk
  have hspans : direntries.Spans b 0 parent.inodesize rs := hrs.congr fun x _ hx => hread x hx
  rcases @slackLoop_spec _ _ _ _ (required name) parent.inodesize hspans (by omega) with
    ⟨hnone, hall⟩ | ⟨pre, r, post, off, rfl, hpre, hroom, hloop, hfront, hback⟩
  · exact .inl ⟨createdirentry_full hb hnone buf', hall⟩
  · refine .inr ⟨pre, r, post, rfl, ?_⟩
    obtain ⟨hget, hvalid, hpost⟩ := id hback
    have hget' : DirRecord.get b off = r := hget
    have hcon : Lyre.Ext2.contracted b off = r.contracted := hget' ▸ contracted_eq b off
    have havailable : available b off = r.slack := by
      rw [available_eq (hget' ▸ hvalid), hget']
    obtain ⟨hsame, hdivide⟩ := @spans_divide _ name _ _ _ _ hget' hvalid hnew htype hname hroom
    obtain ⟨b', hb'⟩ : ∃ b', b' = Direntry.make (Direntry.setEntsize b off r.contracted)
      (off + r.contracted) newidx r.slack dirtype name := ⟨_, rfl⟩
    rw [← hb'] at hsame hdivide
    have hrecords : direntries.Spans b' 0 parent.inodesize
        (pre ++ (r.divide ⟨newidx, 0, dirtype, name⟩ ++ post)) := hfront.replace hdivide hpost hsame
    -- the directory has a byte
    have hsize : 0 < parent.inodesize := Nat.lt_of_le_of_lt (Nat.zero_le off) hback.lt
    have hgrow : fs.GrowsNot parent 0 parent.inodesize := .inl (by omega)
    obtain ⟨fs₂, m', hentered, hs, hwrite⟩ := @inodewrite_scatters _ _ _ b' _ _ _ hG hf hidx hp hgrow
    have hgrown : parent.grown (0 + parent.inodesize) = parent := by
      rw [Nat.zero_add]
      exact if_neg (Nat.lt_irrefl _)
    rw [hgrown] at hentered hwrite
    have hcall : fs.createdirentry parent parentidx newidx dirtype name buf buf' =
        (fs₂.withDevice m', parent, 0) := by
      rw [createdirentry_room hb hloop, splitdirentry, hcon, havailable, ← hb', hwrite]
    have hfits : Fits G (fs₂.withDevice m') := hp.fits_scattered hf hentered.fits (Nat.le_refl _) hs
    have hkept : ∀ x, ¬ G.InInode parentidx x → (∀ k < parent.inodesize, x ≠ fs.bytepos parent (0 + k)) →
        (fs₂.withDevice m').device x = fs.device x := fun x hin hx =>
      (hs.others x hx).trans (hentered.kept x hin)
    have hplaces : ∀ k < parent.inodesize,
        (fs₂.withDevice m').bytepos parent k = fs.bytepos parent k := fun k hk =>
      hp.bytepos_kept hf hfits (fun _ _ => rfl) hkept (Nat.zero_le k) (by omega)
    rw [hcall]
    refine ⟨hpre, hroom, hrecords.congr fun k _ hk => ?_, rfl, rfl, fun k hk => ?_, hfits, hentered.sb,
      fun x hin hx => hkept x hin fun k hk => by rw [Nat.zero_add]; exact hx k hk, hplaces⟩
    · have hmoved := hs.moved k hk
      rw [Nat.zero_add] at hmoved
      rw [contents, hplaces k hk]
      exact hmoved
    · refine (hs.others _ fun d hd heq => ?_).trans (hentered.entry k hk)
      refine hp.bytepos_outside hf (Nat.zero_le (0 + d)) (by omega) _ (Fits.valid_inode hG hidx) ?_
      rw [← heq]
      exact ⟨Nat.le_add_right _ k, Nat.add_lt_add_left hk _⟩

/-- **A return of 0 means that the record is inserted:** the directory is well formed, of the size that
it had, and has the records that it had, in their order. -/
theorem createdirentry_inserts (hG : G.Sound) (hf : Fits G fs) (hidx : G.IsInode parentidx)
    (hp : Placed G fs parent parentidx 0 parent.inodesize)
    (hrs : direntries.Spans (fs.contents parent) 0 parent.inodesize rs)
    (hnew : newidx < 2 ^ 32) (htype : dirtype < 2 ^ 8) (hname : 1 ≤ name.length ∧ name.length ≤ 255)
    (hret : (fs.createdirentry parent parentidx newidx dirtype name buf buf').2.2 = 0) :
    ∃ pre r post, rs = pre ++ r :: post ∧ Inserts G fs parent parentidx ⟨newidx, 0, dirtype, name⟩ pre r
      post (fs.createdirentry parent parentidx newidx dirtype name buf buf') := by
  rcases @createdirentry_cases _ _ _ buf buf' _ _ _ _ _ hG hf hidx hp hrs hnew htype
    (show name.length < 2 ^ 8 by omega) with ⟨hnone, -⟩ | hinserts
  · rw [hnone] at hret
    exact absurd hret (by decide)
  · exact hinserts

/-! ## Reading it back -/

/-- What `ext2fs_populate` makes of a record: the name up to its NUL, and the number of the inode. -/
def DirRecord.listed (r : DirRecord) : Option (List (BitVec 8) × Nat) :=
  let name := r.name.takeWhile fun b => decide (b ≠ 0)
  if r.inodeidx = 0 then none
  else if name = [46] ∨ name = [46, 46] then none
  else some (name, r.inodeidx)

/-- The name of a node, and the number of its inode. -/
def Child.listed (c : Child) : List (BitVec 8) × Nat := (c.name, c.inodeidx)

theorem populateEntry_listed (linkbuffer : Mem) :
    (fs.populateEntry buf linkbuffer off).map Child.listed = (DirRecord.get buf off).listed := by
  have hname : Direntry.namebuf buf off =
      (DirRecord.get buf off).name.takeWhile fun b => decide (b ≠ 0) := rfl
  unfold populateEntry DirRecord.listed
  dsimp only
  rw [← hname, show Direntry.inodeidx buf off = (DirRecord.get buf off).inodeidx from rfl]
  split
  · rfl
  split
  · rfl
  · rfl

theorem populateLoop_listed {linkbuffer : Nat → Mem} (h : direntries.Spans buf off size rs)
    (hfuel : rs.length < fuel) :
    ∃ children, fs.populateLoop buf size linkbuffer fuel off = some children ∧
      children.map Child.listed = rs.filterMap DirRecord.listed := by
  induction rs generalizing off fuel with
  | nil =>
    obtain ⟨fuel, rfl⟩ := Nat.exists_eq_succ_of_ne_zero (Nat.ne_of_gt hfuel)
    obtain rfl : off = size := h
    exact ⟨[], if_neg (Nat.lt_irrefl off), rfl⟩
  | cons r rs ih =>
    obtain ⟨fuel, rfl⟩ := Nat.exists_eq_succ_of_ne_zero (Nat.ne_of_gt (Nat.zero_lt_of_lt hfuel))
    have hlt := h.lt
    obtain ⟨hget, -, hrest⟩ := h
    obtain ⟨children, hrun, hlisted⟩ := ih hrest (Nat.lt_of_succ_lt_succ hfuel)
    have hsize : Direntry.entsize buf off = direntries.width r := hget ▸ rfl
    have hentry : (fs.populateEntry buf (linkbuffer off) off).map Child.listed = r.listed :=
      (populateEntry_listed (linkbuffer off)).trans (congrArg DirRecord.listed hget)
    refine ⟨(fs.populateEntry buf (linkbuffer off) off).toList ++ children, ?_, ?_⟩
    · rw [populateLoop, if_pos hlt, hsize, hrun]
      rfl
    · rw [List.map_append, hlisted, List.filterMap_cons, ← hentry]
      cases fs.populateEntry buf (linkbuffer off) off <;> rfl

theorem populate_listed {linkbuffer : Nat → Mem} (hm : fs.Mounted)
    (hsize : (fs.inodereadentry parentidx).inodesize ≤ 2 ^ 32 * fs.blksize)
    (h : direntries.Spans (fs.contents (fs.inodereadentry parentidx)) 0
      (fs.inodereadentry parentidx).inodesize rs) (hfuel : rs.length < fuel) (buf : Mem) :
    ∃ children, fs.populate parentidx buf linkbuffer fuel = some children ∧
      children.map Child.listed = rs.filterMap DirRecord.listed :=
  populateLoop_listed (h.congr fun _ _ hx => inoderead_whole hm hsize hx) hfuel

theorem Inserts.inode_read {new r : DirRecord} {pre post : List DirRecord}
    {result : Ext2fs × Inode × Int} (h : Inserts G fs parent parentidx new pre r post result)
    (hG : G.Sound) (hidx : G.IsInode parentidx) {k : Nat} (hk : k < Inode.size) :
    (result.1.inodereadentry parentidx).raw k = parent.raw k := by
  rw [← h.entry k hk]
  change result.1.device (result.1.inodeoffset parentidx + k) = _
  rw [h.fits.inodeoffset hG hidx]
  rfl

/-- **What has been inserted is read back.** When `ext2fs_createdirentry` has returned 0, the nodes
that `ext2fs_populate` makes of the directory are those that it would have made before, in their
order, with the new one behind one of the records. -/
theorem createdirentry_listed (hG : G.Sound) (hf : Fits G fs) (hidx : G.IsInode parentidx)
    (hp : Placed G fs parent parentidx 0 parent.inodesize)
    (hrs : direntries.Spans (fs.contents parent) 0 parent.inodesize rs)
    (hnew : newidx < 2 ^ 32) (htype : dirtype < 2 ^ 8) (hname : name.length < 2 ^ 8)
    (hret : (fs.createdirentry parent parentidx newidx dirtype name buf buf').2.2 = 0) :
    ∃ pre r post, rs = pre ++ r :: post ∧
      ∀ (m : Mem) (linkbuffer : Nat → Mem) (fuel : Nat), rs.length + 1 < fuel →
        ∃ children, (fs.createdirentry parent parentidx newidx dirtype name buf buf').1.populate
            parentidx m linkbuffer fuel = some children ∧
          children.map Child.listed =
            (pre ++ r :: ⟨newidx, 0, dirtype, name⟩ :: post).filterMap DirRecord.listed := by
  rcases @createdirentry_cases _ _ _ buf buf' _ _ _ _ _ hG hf hidx hp hrs hnew htype hname with
    ⟨hnone, -⟩ | ⟨pre, r, post, rfl, hins⟩
  · rw [hnone] at hret
    exact absurd hret (by decide)
  · generalize fs.createdirentry parent parentidx newidx dirtype name buf buf' = result at hins
    refine ⟨pre, r, post, rfl, fun m linkbuffer fuel hfuel => ?_⟩
    have hraw : ∀ a n, a + n ≤ Inode.size → read (result.1.inodereadentry parentidx).raw a n =
        read parent.raw a n := fun a n hle => read_congr fun x _ hx =>
      hins.inode_read hG hidx (Nat.lt_of_lt_of_le hx hle)
    have hsize : (result.1.inodereadentry parentidx).inodesize = parent.inodesize := by
      unfold Inode.inodesize Inode.sizelo Inode.sizehi
      rw [hraw 4 4 (by decide), hraw 108 4 (by decide)]
    have hcontents : ∀ k < parent.inodesize,
        result.1.contents (result.1.inodereadentry parentidx) k = result.1.contents parent k := by
      intro k hk
      unfold contents
      rw [hins.places k hk, hp.bytepos_kept hf hins.fits
        (fun slot hslot => hraw (40 + 4 * slot) 4 (by unfold Inode.size; omega))
        (fun x hin hx => hins.kept x hin fun k hk => by
          have := hx k hk
          rwa [Nat.zero_add] at this) (Nat.zero_le k) (by omega)]
    have hspans := hins.records.congr fun x _ hx => hcontents x hx
    rw [← hsize] at hspans
    have hnum := hp.numbers
    rw [Nat.zero_add, ← hsize, hf.blksize, ← hins.fits.blksize] at hnum
    have hlong : (pre ++ (r.divide ⟨newidx, 0, dirtype, name⟩ ++ post)).length < fuel := by
      simp only [DirRecord.divide, List.length_append, List.length_cons, List.length_nil] at hfuel ⊢
      omega
    obtain ⟨children, hrun, hlisted⟩ := populate_listed hins.fits.mounted hnum hspans hlong m
    refine ⟨children, hrun, hlisted.trans ?_⟩
    -- the records that are read differ from these in their sizes only
    have hdivide : (r.divide ⟨newidx, 0, dirtype, name⟩).filterMap DirRecord.listed =
        [r, ⟨newidx, 0, dirtype, name⟩].filterMap DirRecord.listed := rfl
    rw [List.filterMap_append, List.filterMap_append, hdivide, ← List.filterMap_append,
      ← List.filterMap_append]
    rfl

/-! ## A small directory -/

/-- The entries `.` and `..`, the second of which has a slack of 24 bytes. -/
def dotRecords : List DirRecord := [⟨2, 12, 2, [46]⟩, ⟨2, 36, 2, [46, 46]⟩]

/-- The two entries in block 7. -/
def dirImage : Ext2fs :=
  smallImage.withDevice (put smallImage.device (7 * 1024) 24 fun k =>
    [2, 0, 0, 0, 12, 0, 1, 2, 46, 0, 0, 0, 2, 0, 0, 0, 36, 0, 2, 2, 46, 46, 0, 0].getD k 0)

/-- An inode of 48 bytes in block 7. -/
def dirInode : Inode := (emptyInode.setBlocks 0 7).setInodesize 48

theorem dirImage_fits : Fits smallGeometry dirImage := by
  refine smallImage_fits.congr rfl rfl (Fits.rfl_static _) fun g hg k hk => ?_
  obtain rfl : g = 0 := Nat.lt_one_iff.mp hg
  have hstart : smallGeometry.start (.desc 0) = 2048 := by decide
  rw [Ext2fs.region, Ext2fs.region, hstart, dirImage, withDevice_device,
    put_sameOff _ _ _ _ (2048 + k) (by omega)]

theorem dirInode_covered : Covered smallGeometry dirImage dirInode 0 48 := by
  have hget : ∀ p, p < 0 + 48 → (dirImage.blockmap dirInode).get (p / dirImage.blksize) = 7 := by
    intro p hp
    rw [show p / dirImage.blksize = 0 from Nat.div_eq_of_lt (show p < 1024 by omega),
      map_direct (by decide)]
    decide
  have htables : ∀ t, ¬ (dirImage.blockmap dirInode).IsTable t := by
    rintro t ⟨slot, hslot, ht⟩
    have hroot : ∀ slot < 15, 12 ≤ slot → dirInode.blocks slot = 0 := by decide
    rcases Nat.lt_or_ge slot 12 with hlt | hge
    · rw [show depth slot = 0 by unfold depth; omega] at ht
      exact absurd ht List.not_mem_nil
    · rw [show (dirImage.blockmap dirInode).roots slot = 0 from hroot slot hslot hge,
        Tables.tables_zero] at ht
      exact absurd ht List.not_mem_nil
  refine ⟨fun p _ hlt => ?_, fun p q _ hlt _ hlt' hne => ?_, fun p _ hlt => ⟨fun x hx => ?_, htables _⟩,
    fun t ht => absurd ht (htables t), by decide, by decide⟩
  · rw [hget p hlt]
    decide
  · have hp : p / 1024 ≠ q / 1024 := hne
    omega
  · rw [hget p hlt] at hx
    have hdiv : x / 1024 = 7 := hx
    exact small_outside (by omega)

theorem createdirentry_inserts_small : ∃ pre r post, dotRecords = pre ++ r :: post ∧
    Inserts smallGeometry dirImage dirInode 2 ⟨12, 0, 1, [97]⟩ pre r post
      (dirImage.createdirentry dirInode 2 12 1 [97] (fun _ => 0) (fun _ => 0)) := by
  have hsize : dirInode.inodesize = 48 := by decide
  exact createdirentry_inserts smallGeometry_sound dirImage_fits ⟨by decide, by decide⟩
    (dirInode_covered.placed smallGeometry_sound dirImage_fits ⟨by decide, by decide⟩)
    ⟨by decide +kernel, ⟨by decide, by decide⟩, by decide +kernel, ⟨by decide, by decide⟩, hsize.symm⟩
    (by decide) (by decide) ⟨by decide, by decide⟩ (by decide +kernel)

theorem createdirentry_listed_small : ∃ pre r post, dotRecords = pre ++ r :: post ∧
    ∀ (m : Mem) (linkbuffer : Nat → Mem) (fuel : Nat), 3 < fuel →
      ∃ children, (dirImage.createdirentry dirInode 2 12 1 [97] (fun _ => 0) (fun _ => 0)).1.populate
          2 m linkbuffer fuel = some children ∧
        children.map Child.listed =
          (pre ++ r :: ⟨12, 0, 1, [97]⟩ :: post).filterMap DirRecord.listed := by
  have hsize : dirInode.inodesize = 48 := by decide
  exact createdirentry_listed smallGeometry_sound dirImage_fits ⟨by decide, by decide⟩
    (dirInode_covered.placed smallGeometry_sound dirImage_fits ⟨by decide, by decide⟩)
    ⟨by decide +kernel, ⟨by decide, by decide⟩, by decide +kernel, ⟨by decide, by decide⟩, hsize.symm⟩
    (by decide) (by decide) (by decide) (by decide +kernel)

end Lyre.Ext2

import Lyre.Properties.FatPopulate
import Mathlib.Data.List.DropRight
import Mathlib.Data.List.Forall2

/-!
# Which nodes `fat32fs_populate` creates

A well-formed directory is a list of items (`Item`): unused records, labels, and entries with the
records of their names. Each entry should have a node with its name (`expected`). What comes out
differs where an entry has one of the bits that the code takes for a long name, and where nothing ends
a name in `namebuffer` but what an earlier entry has left there (`Clean`).
-/

namespace Lyre.Fat32

open Infra Infra.Bytes

/-! ## Well-formed directories -/

/-- What a directory consists of. An entry has the records of its long name in front of it. -/
inductive Item where
  | unused
  | label
  | entry (parts : Nat) (long : List Byte)

/-- A name of 8 and 3 characters without the padding. -/
def shortString (buf : Mem) (off : Nat) : List Byte :=
  let base := ((List.range 8).map (Dent.name buf off)).rdropWhile (· = 0x20)
  let ext := ((List.range 3).map fun k => Dent.name buf off (8 + k)).rdropWhile (· = 0x20)
  base ++ if ext = [] then [] else 46 :: ext

namespace Item

variable (buf : Mem) (i : Nat)

/-- The number of its records. -/
def records : Item → Nat
  | unused => 1
  | label => 1
  | entry parts _ => parts + 1

/-- The item lies at record `i`. The characters of a long name are below 256. -/
def At : Item → Prop
  | unused => buf (dentSize * i) = 0xe5
  | label => LfnAt buf i ∧ Dent.attributes buf (dentSize * i) &&& attrVolumeid ≠ 0
  | entry parts long =>
    Parts buf (i + parts) parts ∧
    buf (dentSize * (i + parts)) ≠ 0xe5 ∧
    Dent.attributes buf (dentSize * (i + parts)) &&& attrVolumeid = 0 ∧
    (∀ k < 11, buf (dentSize * (i + parts) + k) ≠ 0) ∧
    (∀ b ∈ long, b ≠ 0) ∧ long.length ≤ parts * 13 ∧
    ∀ q ≤ long.length, q < parts * 13 → partChar buf (i + parts) q = long.getD q 0

/-- The name of an entry. -/
def name (parts : Nat) (long : List Byte) : List Byte :=
  if parts = 0 then shortString buf (dentSize * i) else long

/-- What decoding an entry leaves in `namebuffer`, in which there has been `m`. -/
def leaves (parts : Nat) (m : Mem) : Mem := fun q =>
  if parts = 0 then (shortString buf (dentSize * i)).getD q (m q)
  else if q < parts * 13 then partChar buf (i + parts) q else m q

/-- No entry. -/
def IsRest : Item → Prop
  | entry _ _ => False
  | _ => True

end Item

variable {buf m : Mem} {s : Scan} {i n left : Nat} {fs : Volume} {chainsize : Nat → Nat}
  {items : List Item} {long : List Byte} {parts : Nat}

/-- The items lie from record `i` on in a directory of `n` records, up to the end mark or to the
end. -/
def Lays (buf : Mem) (n : Nat) : Nat → List Item → Prop
  | i, [] => i = n ∨ i < n ∧ buf (dentSize * i) = 0
  | i, item :: items => i + item.records ≤ n ∧ item.At buf i ∧ Lays buf n (i + item.records) items

/-- The nodes that there should be, by the records of their entries and by their names. -/
def expected (buf : Mem) : Nat → List Item → List (Nat × List Byte)
  | _, [] => []
  | i, .entry parts long :: items =>
    if DotName (Item.name buf i parts long) then expected buf (i + parts + 1) items
    else (i + parts, Item.name buf i parts long) :: expected buf (i + parts + 1) items
  | i, _ :: items => expected buf (i + 1) items

/-- A node that is as it should be. -/
def Shows (c : Child) (x : Nat × List Byte) : Prop := c.diroffset = dentSize * x.1 ∧ IsString c.name x.2

/-- No entry is read-only, hidden or a system file, no entry comes behind a label, and in `m`, which
is what the items in front have left in `namebuffer`, every name is followed by a NUL. -/
def Clean (buf : Mem) : Nat → Mem → List Item → Prop
  | _, _, [] => True
  | i, m, .unused :: items => Clean buf (i + 1) m items
  | _, _, .label :: items => ∀ item ∈ items, item.IsRest
  | i, m, .entry parts long :: items =>
    Dent.attributes buf (dentSize * (i + parts)) &&& attrLfn = 0 ∧
    (if DotName (Item.name buf i parts long) then IsDots (Item.leaves buf i parts m)
      else Item.leaves buf i parts m (Item.name buf i parts long).length = 0) ∧
    Clean buf (i + parts + 1) (Item.leaves buf i parts m) items

/-- No entry comes behind a label, and the dot entries have none of the bits. -/
def Plain (buf : Mem) : Nat → List Item → Prop
  | _, [] => True
  | i, .unused :: items => Plain buf (i + 1) items
  | _, .label :: items => ∀ item ∈ items, item.IsRest
  | i, .entry parts long :: items =>
    (DotName (Item.name buf i parts long) →
      Dent.attributes buf (dentSize * (i + parts)) &&& attrLfn = 0) ∧
    Plain buf (i + parts + 1) items

/-! ## Short names -/

theorem rdropWhile_padding (str : Nat → Byte) (len : Nat) :
    ((List.range len).map str).rdropWhile (· = 0x20) =
      (List.range (len - countspacepadding str len)).map str := by
  induction len with
  | zero => rfl
  | succ len ih =>
    rw [List.range_succ, List.map_append, List.map_singleton, countspacepadding]
    by_cases h : str len = 0x20
    · rw [List.rdropWhile_concat_pos _ _ _ (by simpa using h), ih, if_pos h, Nat.succ_sub_succ]
    · rw [List.rdropWhile_concat_neg _ _ _ (by simpa using h), if_neg h, Nat.sub_zero,
        List.range_succ, List.map_append, List.map_singleton]

theorem strncpy_at {a k : Nat} {f : Nat → Byte} (hnul : ∀ j < n, f j ≠ 0) :
    Ext2.Ext2fs.strncpy m a f n k = if a ≤ k ∧ k < a + n then f (k - a) else m k := by
  rw [Ext2.Ext2fs.strncpy, Bytes.put]
  by_cases hk : a ≤ k ∧ k < a + n
  · rw [if_pos hk, if_pos hk, if_pos fun j hj => hnul j (by omega)]
  · rw [if_neg hk, if_neg hk]

theorem getD_map_range (f : Nat → Byte) (len q : Nat) (b : Byte) :
    ((List.range len).map f).getD q b = if q < len then f q else b := by
  by_cases hq : q < len
  · rw [if_pos hq, List.getD_eq_getElem _ _ (by simpa using hq), List.getElem_map, List.getElem_range]
  · rw [if_neg hq, List.getD_eq_default _ _ (by simpa using hq)]

theorem shortString_getD (buf : Mem) (off q : Nat) (b : Byte) :
    let base := 8 - countspacepadding (Dent.name buf off) 8
    let ext := 3 - countspacepadding (fun k => Dent.name buf off (8 + k)) 3
    (shortString buf off).getD q b =
      if q < base then Dent.name buf off q
      else if ext = 0 then b
      else if q = base then 46
      else if q < base + 1 + ext then Dent.name buf off (8 + (q - (base + 1))) else b := by
  intro base ext
  rw [shortString, rdropWhile_padding, rdropWhile_padding]
  have hlen : ((List.range base).map (Dent.name buf off)).length = base := by simp
  by_cases hq : q < base
  · rw [if_pos hq, List.getD_append _ _ _ _ (by rw [hlen]; exact hq), getD_map_range, if_pos hq]
  · rw [if_neg hq, List.getD_append_right _ _ _ _ (by rw [hlen]; omega), hlen]
    by_cases hext : ext = 0
    · rw [if_pos hext, if_pos (by simpa using hext), List.getD_nil]
    · rw [if_neg hext, if_neg (by simpa using hext)]
      by_cases hqb : q = base
      · rw [if_pos hqb, hqb, Nat.sub_self, List.getD_cons_zero]
      · obtain ⟨d, rfl⟩ : ∃ d, q = base + 1 + d := ⟨q - (base + 1), by omega⟩
        rw [if_neg hqb, show base + 1 + d - base = d + 1 by omega, List.getD_cons_succ, getD_map_range,
          Nat.add_sub_cancel_left]
        congr 1
        exact propext (by omega)

theorem shortName_name (hnul : ∀ k < 11, s.buffer (dentSize * i + k) ≠ 0) :
    (s.shortName i).name = fun q => (shortString s.buffer (dentSize * i)).getD q (s.name q) := by
  funext q
  rw [shortString_getD, Scan.name, Scan.shortName]
  have hbase := countspacepadding_le (Dent.name s.buffer (dentSize * i)) 8
  have hext := countspacepadding_le (fun k => Dent.name s.buffer (dentSize * i) (8 + k)) 3
  generalize hb : 8 - countspacepadding (Dent.name s.buffer (dentSize * i)) 8 = base
  generalize he : 3 - countspacepadding (fun k => Dent.name s.buffer (dentSize * i) (8 + k)) 3 = ext
  have hbnul : ∀ j < base, Dent.name s.buffer (dentSize * i) j ≠ 0 := fun j hj => hnul j (by omega)
  have henul : ∀ j < ext, (fun k => Dent.name s.buffer (dentSize * i) (8 + k)) j ≠ 0 :=
    fun j hj => hnul (8 + j) (by omega)
  by_cases he0 : ext = 0
  · rw [if_pos he0]
    by_cases hb0 : base = 0
    · rw [if_pos hb0, if_neg (by omega), if_pos he0, Scan.name]
    · rw [if_neg hb0, if_pos he0]
      simp only [strncpy_at hbnul]
      by_cases hq : q < base
      · rw [if_pos (by omega), if_pos hq, Nat.add_sub_cancel_left]
      · rw [if_neg (by omega), if_neg hq, Scan.name]
  · rw [if_neg he0, if_neg he0]
    simp only [strncpy_at henul]
    by_cases hq : q < base
    · have hb0 : base ≠ 0 := by omega
      rw [if_neg (by omega), if_pos hq, if_neg hb0, Function.update_of_ne (by omega)]
      simp only [strncpy_at hbnul]
      rw [if_pos (by omega), Nat.add_sub_cancel_left]
    · by_cases hqb : q = base
      · rw [if_neg (by omega), if_neg hq, if_pos hqb, hqb, Function.update_self]
      · by_cases hqe : q < base + 1 + ext
        · rw [if_pos (by omega), if_neg hq, if_neg hqb, if_pos hqe]
          congr 2
          omega
        · rw [if_neg (by omega), if_neg hq, if_neg hqb, if_neg hqe, Function.update_of_ne (by omega)]
          by_cases hb0 : base = 0
          · rw [if_pos hb0, Scan.name]
          · rw [if_neg hb0]
            simp only [strncpy_at hbnul]
            rw [if_neg (by omega), Scan.name]

theorem shortString_congr {buf' : Mem} {off : Nat} (h : ∀ k < 11, buf' (off + k) = buf (off + k)) :
    shortString buf' off = shortString buf off := by
  have hbase : (List.range 8).map (Dent.name buf' off) = (List.range 8).map (Dent.name buf off) :=
    List.map_congr_left fun k hk => h k (by have := List.mem_range.mp hk; omega)
  have hext : ((List.range 3).map fun k => Dent.name buf' off (8 + k)) =
      (List.range 3).map fun k => Dent.name buf off (8 + k) :=
    List.map_congr_left fun k hk => h (8 + k) (by have := List.mem_range.mp hk; omega)
  rw [shortString, shortString, hbase, hext]

/-! ## New nodes -/

/-- A node that the loop creates from record `i` on belongs to an entry in front of the end mark. -/
structure Created (buf : Mem) (i n : Nat) (c : Child) (k : Nat) : Prop where
  diroffset : c.diroffset = dentSize * k
  from_le : i ≤ k
  inside : k < n
  entryAt : EntryAt buf k
  before : ∀ j, i ≤ j → j ≤ k → buf (dentSize * j) ≠ 0

theorem Created.back {c : Child} {k : Nat} (h : Created buf (i + 1) n c k) (h0 : buf (dentSize * i) ≠ 0) :
    Created buf i n c k where
  diroffset := h.diroffset
  from_le := Nat.le_of_succ_le h.from_le
  inside := h.inside
  entryAt := h.entryAt
  before j hj hjk := by
    rcases Nat.eq_or_lt_of_le hj with rfl | hlt
    · exact h0
    · exact h.before j hlt hjk

theorem lfn_buffer (s : Scan) (i : Nat) : ∃ b, (s.lfn i).1.buffer = Function.update s.buffer (dentSize * i) b := by
  rw [Scan.lfn]
  simp only
  split_ifs <;> exact ⟨_, rfl⟩

theorem lfn_children (s : Scan) (i : Nat) : (s.lfn i).1.children = s.children := by
  rw [Scan.lfn]
  simp only
  split_ifs <;> rfl

theorem scanLoop_created (hleft : i + left = n) (hbuffer : ∀ x, dentSize * i ≤ x → s.buffer x = buf x) :
    ∃ new, (scanLoop fs chainsize (fun _ => true) left i s).1.children = s.children ++ new ∧
      ∀ c ∈ new, ∃ k, Created buf i n c k := by
  induction left generalizing i s with
  | zero => exact ⟨[], (List.append_nil _).symm, by simp⟩
  | succ left ih =>
    obtain ⟨hend, hunused, hlfn, hentry⟩ := scanLoop_turn left fs chainsize (fun _ => true) hbuffer
    have hle : dentSize * i ≤ dentSize * (i + 1) := Nat.mul_le_mul_left _ (Nat.le_succ i)
    -- the records behind this one
    have hnext : ∀ s' : Scan, (∀ x, dentSize * (i + 1) ≤ x → s'.buffer x = s.buffer x) →
        buf (dentSize * i) ≠ 0 → ∃ new,
          (scanLoop fs chainsize (fun _ => true) left (i + 1) s').1.children = s'.children ++ new ∧
          ∀ c ∈ new, ∃ k, Created buf i n c k := by
      intro s' hb h0
      obtain ⟨new, hnew, hall⟩ := @ih s' (i + 1) (by omega) fun x hx => by
        rw [hb x hx, hbuffer x (hle.trans hx)]
      refine ⟨new, hnew, fun c hc => ?_⟩
      obtain ⟨k, hk⟩ := hall c hc
      exact ⟨k, hk.back h0⟩
    rcases record_cases buf i with h0 | he5 | hl | he
    · rw [hend h0]
      exact ⟨[], (List.append_nil _).symm, by simp⟩
    · rw [hunused he5]
      exact hnext _ (fun _ _ => rfl) (by rw [he5]; decide)
    · rw [hlfn hl]
      split
      · obtain ⟨b, hb⟩ := lfn_buffer (s.note i) i
        have h := hnext ((s.note i).lfn i).1 (fun x hx => by
          rw [hb, Function.update_of_ne (by unfold dentSize at hx ⊢; omega)]
          rfl) hl.1
        rwa [lfn_children] at h
      · exact ⟨[], by rw [lfn_children, List.append_nil]; rfl, by simp⟩
    · obtain ⟨hok, hlisted⟩ := entry_listed (s.note i) fs chainsize i
      rw [hentry he, if_pos hok]
      obtain ⟨new, hnew, hall⟩ := hnext _ (fun x _ => by rw [hlisted.buffer]; rfl) he.1
      by_cases hdots : IsDots (if (s.note i).islfn = false then (s.note i).shortName i else s.note i).name
      · exact ⟨new, by rw [hnew, hlisted.dots hdots]; rfl, hall⟩
      · obtain ⟨c, hc, -, hoff⟩ := hlisted.child hdots
        refine ⟨c :: new, by rw [hnew, hc, List.append_assoc]; rfl, fun c' hc' => ?_⟩
        rcases List.mem_cons.mp hc' with rfl | hc'
        · refine ⟨i, hoff, le_refl i, by omega, he, fun j hj hji => ?_⟩
          rw [Nat.le_antisymm hji hj]
          exact he.1
        · exact hall c' hc'

/-! ## The items one after the other -/

theorem expected_ge : ∀ {items : List Item} {i : Nat}, ∀ x ∈ expected buf i items, i ≤ x.1
  | [], _, x, hx => by simp [expected] at hx
  | .unused :: items, i, x, hx => Nat.le_of_succ_le (expected_ge x hx)
  | .label :: items, i, x, hx => Nat.le_of_succ_le (expected_ge x hx)
  | .entry parts long :: items, i, x, hx => by
    rw [expected] at hx
    split at hx
    · have := expected_ge x hx
      omega
    · rcases List.mem_cons.mp hx with rfl | hx
      · exact Nat.le_add_right i parts
      · have := expected_ge x hx
        omega

/-- Behind a label and unused records no entry is expected, and there is none. -/
theorem rest_expected (hrest : ∀ item ∈ items, item.IsRest) : expected buf i items = [] := by
  induction items generalizing i with
  | nil => rfl
  | cons item items ih =>
    have htail := fun i => @ih i fun x hx => hrest x (List.mem_cons_of_mem _ hx)
    cases item with
    | unused => exact htail (i + 1)
    | label => exact htail (i + 1)
    | entry parts long => exact (hrest _ List.mem_cons_self).elim

theorem rest_created {c : Child} {k : Nat} (hrest : ∀ item ∈ items, item.IsRest) (hlays : Lays buf n i items)
    (hc : Created buf i n c k) : False := by
  induction items generalizing i with
  | nil =>
    rcases hlays with rfl | ⟨-, h0⟩
    · exact absurd hc.inside (Nat.not_lt.mpr hc.from_le)
    · exact hc.before i (le_refl i) hc.from_le h0
  | cons item items ih =>
    have hstep : ¬ EntryAt buf i → Lays buf n (i + 1) items → False := by
      intro hnot hl
      refine ih (fun x hx => hrest x (List.mem_cons_of_mem _ hx)) hl
        ⟨hc.diroffset, ?_, hc.inside, hc.entryAt, fun j hj => hc.before j (by omega)⟩
      rcases Nat.eq_or_lt_of_le hc.from_le with rfl | hlt
      · exact absurd hc.entryAt hnot
      · exact hlt
    cases item with
    | unused => exact hstep (fun he => he.2.1 hlays.2.1) hlays.2.2
    | label => exact hstep (fun he => he.2.2 hlays.2.1.1.2.2) hlays.2.2
    | entry parts long => exact hrest _ List.mem_cons_self

/-! ### An entry -/

theorem shortString_ne_zero {off : Nat} (hnul : ∀ k < 11, buf (off + k) ≠ 0) :
    ∀ b ∈ shortString buf off, b ≠ 0 := by
  have hpart : ∀ (f : Nat → Byte) (len : Nat), (∀ k < len, f k ≠ 0) →
      ∀ b ∈ ((List.range len).map f).rdropWhile (· = 0x20), b ≠ 0 := by
    intro f len hf b hb
    obtain ⟨k, hk, rfl⟩ := List.mem_map.mp ((List.rdropWhile_prefix _ _).subset hb)
    exact hf k (List.mem_range.mp hk)
  intro b hb
  rw [shortString] at hb
  rcases List.mem_append.mp hb with hb | hb
  · exact hpart _ 8 (fun k hk => hnul k (by omega)) b hb
  · split at hb
    · cases hb
    · rcases List.mem_cons.mp hb with rfl | hb
      · decide
      · exact hpart (fun k => Dent.name buf off (8 + k)) 3 (fun k hk => hnul (8 + k) (by omega)) b hb

/-- The records of an entry put its name into `namebuffer`. -/
theorem leaves_getD {q : Nat} (hat : (Item.entry parts long).At buf i)
    (hq : q < (Item.name buf i parts long).length) :
    Item.leaves buf i parts m q = (Item.name buf i parts long).getD q 0 := by
  obtain ⟨-, -, -, -, -, hlen, hchars⟩ := hat
  unfold Item.leaves Item.name at *
  by_cases h0 : parts = 0
  · simp only [if_pos h0] at hq ⊢
    rw [List.getD_eq_getElem _ _ hq, List.getD_eq_getElem _ _ hq]
  · simp only [if_neg h0] at hq ⊢
    rw [if_pos (by omega), hchars q hq.le (by omega)]

theorem name_ne_zero (hat : (Item.entry parts long).At buf i) :
    ∀ b ∈ Item.name buf i parts long, b ≠ 0 := by
  obtain ⟨-, -, -, hnul, hlong, -⟩ := hat
  unfold Item.name
  split_ifs with h0
  · subst h0
    exact shortString_ne_zero hnul
  · exact hlong

theorem leaves_isString_iff (hat : (Item.entry parts long).At buf i) :
    IsString (Item.leaves buf i parts m) (Item.name buf i parts long) ↔
      Item.leaves buf i parts m (Item.name buf i parts long).length = 0 := by
  constructor
  · intro h
    rw [h.getD _ (le_refl _), List.getD_eq_default _ _ (le_refl _)]
  · intro hend
    refine ⟨name_ne_zero hat, fun q hq => ?_⟩
    rcases Nat.lt_or_eq_of_le hq with hlt | rfl
    · exact leaves_getD hat hlt
    · rw [hend, List.getD_eq_default _ _ (le_refl _)]

theorem scanLoop_entry (hat : (Item.entry parts long).At buf i)
    (hattr : Dent.attributes buf (dentSize * (i + parts)) &&& attrLfn = 0)
    (hbuffer : ∀ x, dentSize * i ≤ x → s.buffer x = buf x) (hlfn : s.islfn = false) :
    ∃ s', scanLoop fs chainsize (fun _ => true) (parts + (left + 1)) i s =
        scanLoop fs chainsize (fun _ => true) left (i + parts + 1) s' ∧
      (∀ x, dentSize * (i + parts) ≤ x → s'.buffer x = buf x) ∧ s'.islfn = false ∧
      s'.name = Item.leaves buf i parts s.name ∧
      (IsDots s'.name → s'.children = s.children) ∧
      (¬ IsDots s'.name → ∃ c, s'.children = s.children ++ [c] ∧ c.name = s'.name ∧
        c.diroffset = dentSize * (i + parts)) := by
  obtain ⟨hparts, he5, -, hnul, -⟩ := hat
  obtain ⟨s₁, hrun, h₁⟩ := @Reading.run s s buf (i + parts) parts parts (left + 1) fs chainsize
    (fun _ => true) hparts (le_refl _) (.start hlfn (by rw [Nat.add_sub_cancel]; exact hbuffer))
  rw [Nat.add_sub_cancel] at hrun
  have hentry : EntryAt buf (i + parts) := ⟨hnul 0 (by decide), he5, not_not.mpr hattr⟩
  obtain ⟨s', hturn, hlisted⟩ := @scanLoop_listed s₁ buf (i + parts) left fs chainsize h₁.buffer hentry
  have hname : (if s₁.islfn = false then s₁.shortName (i + parts) else s₁).name =
      Item.leaves buf i parts s.name := by
    funext q
    have hq : s₁.name q = if 0 * 13 ≤ q ∧ q < parts * 13 then partChar buf (i + parts) q
        else s.name q := h₁.namebuffer q
    by_cases h0 : parts = 0
    · subst h0
      rw [if_neg (by omega)] at hq
      have hbytes : ∀ k < 11, s₁.buffer (dentSize * (i + 0) + k) = buf (dentSize * (i + 0) + k) :=
        fun k _ => h₁.buffer _ (Nat.le_add_right _ k)
      have hshort := shortName_name fun k hk => by rw [hbytes k hk]; exact hnul k hk
      rw [if_pos (by rw [h₁.islfn]; rfl), congrFun hshort q, hq, shortString_congr hbytes]
      rfl
    · have hl : ¬ s₁.islfn = false := by
        rw [h₁.islfn, decide_eq_true (Nat.pos_of_ne_zero h0)]
        decide
      rw [if_neg hl, hq, Item.leaves, if_neg h0]
      congr 1
      exact propext (by omega)
  rw [hname] at hlisted
  refine ⟨s', by rw [hrun, hturn], fun x hx => ?_, hlisted.islfn, hlisted.named, ?_, ?_⟩
  · rw [hlisted.buffer]
    exact h₁.buffer x hx
  · rw [hlisted.named, ← h₁.children]
    exact hlisted.dots
  · rw [hlisted.named, ← h₁.children]
    exact hlisted.child

/-! ### All of them -/

theorem not_shows_before {c : Child} {new : List Child} {k : Nat} (hoff : c.diroffset = dentSize * k)
    (hk : k < i) : ¬ List.Forall₂ Shows (c :: new) (expected buf i items) := by
  intro h
  cases hexp : expected buf i items with
  | nil =>
    rw [hexp] at h
    cases h
  | cons x xs =>
    have hge := expected_ge x (by rw [hexp]; exact List.mem_cons_self)
    rw [hexp] at h
    cases h with
    | cons hx _ =>
      have heq := Nat.eq_of_mul_eq_mul_left (by decide) (hoff.symm.trans hx.1)
      omega

theorem not_shows_missing {new : List Child} {x : Nat × List Byte} {xs : List (Nat × List Byte)}
    (hall : ∀ c ∈ new, ∃ k, Created buf i n c k) (hx : EntryAt buf x.1 → x.1 < i) :
    ¬ List.Forall₂ Shows new (x :: xs) := by
  intro h
  cases h with
  | cons hc _ =>
    obtain ⟨k, hk⟩ := hall _ List.mem_cons_self
    have heq := Nat.eq_of_mul_eq_mul_left (by decide) (hc.1.symm.trans hk.diroffset)
    have := hx (heq ▸ hk.entryAt)
    have := hk.from_le
    omega

theorem scanLoop_items (hleft : i + left = n) (hlays : Lays buf n i items)
    (hbuffer : ∀ x, dentSize * i ≤ x → s.buffer x = buf x) (hlfn : s.islfn = false) :
    ∃ new, (scanLoop fs chainsize (fun _ => true) left i s).1.children = s.children ++ new ∧
      (Clean buf i s.name items → List.Forall₂ Shows new (expected buf i items)) ∧
      (Plain buf i items → List.Forall₂ Shows new (expected buf i items) → Clean buf i s.name items) := by
  induction items generalizing i left s with
  | nil =>
    refine ⟨[], ?_, fun _ => .nil, fun _ _ => trivial⟩
    rcases hlays with rfl | ⟨hi, h0⟩
    · obtain rfl : left = 0 := by omega
      exact (List.append_nil _).symm
    · obtain ⟨left, rfl⟩ : ∃ l, left = l + 1 := ⟨left - 1, by omega⟩
      obtain ⟨hend, -⟩ := scanLoop_turn left fs chainsize (fun _ => true) hbuffer
      rw [hend h0]
      exact (List.append_nil _).symm
  | cons item items ih =>
    obtain ⟨hle, hat, hrest⟩ := hlays
    cases item with
    | unused =>
      obtain ⟨left, rfl⟩ : ∃ l, left = l + 1 := ⟨left - 1, by simp only [Item.records] at hle; omega⟩
      obtain ⟨-, hunused, -⟩ := scanLoop_turn left fs chainsize (fun _ => true) hbuffer
      have hmono : dentSize * i ≤ dentSize * (i + 1) := Nat.mul_le_mul_left _ (Nat.le_succ i)
      rw [hunused hat]
      exact @ih (s.note i) (i + 1) left (by omega) hrest (fun x hx => hbuffer x (hmono.trans hx)) hlfn
    | label =>
      obtain ⟨new, hnew, hall⟩ := @scanLoop_created _ s i n left fs chainsize hleft hbuffer
      refine ⟨new, hnew, fun hclean => ?_, fun hplain _ => hplain⟩
      have hrests : ∀ item ∈ Item.label :: items, item.IsRest := by
        intro item hitem
        rcases List.mem_cons.mp hitem with rfl | hitem
        · trivial
        · exact hclean item hitem
      have hnil : new = [] := List.eq_nil_iff_forall_not_mem.mpr fun c hc => by
        obtain ⟨k, hk⟩ := hall c hc
        exact rest_created hrests ⟨hle, hat, hrest⟩ hk
      rw [hnil, rest_expected hrests]
      exact .nil
    | entry parts long =>
      have hposition : i + (parts + 1) = i + parts + 1 := rfl
      simp only [Item.records, hposition] at hle hrest
      obtain ⟨left, rfl⟩ : ∃ l, left = parts + (l + 1) := ⟨left - (parts + 1), by omega⟩
      by_cases hattr : Dent.attributes buf (dentSize * (i + parts)) &&& attrLfn = 0
      · obtain ⟨s', hrun, hbuffer', hlfn', hname, hdots, hchild⟩ :=
          @scanLoop_entry buf s i left fs chainsize long parts hat hattr hbuffer hlfn
        have hmono : dentSize * (i + parts) ≤ dentSize * (i + parts + 1) :=
          Nat.mul_le_mul_left _ (Nat.le_succ _)
        have hnext : ∀ x, dentSize * (i + parts + 1) ≤ x → s'.buffer x = buf x := fun x hx =>
          hbuffer' x (hmono.trans hx)
        obtain ⟨new, hnew, hright, hclean⟩ := @ih s' (i + parts + 1) left (by omega) hrest hnext hlfn'
        obtain ⟨new', hnew', hcreated⟩ :=
          @scanLoop_created buf s' (i + parts + 1) n left fs chainsize (by omega) hnext
        obtain rfl : new' = new := List.append_cancel_left (hnew'.symm.trans hnew)
        have hstring := @leaves_isString_iff _ s.name _ _ _ hat
        rw [hrun, expected, Clean, Plain]
        rw [hname] at hdots hchild hright hclean
        by_cases hdot : DotName (Item.name buf i parts long)
        · rw [if_pos hdot, if_pos hdot]
          by_cases hisdots : IsDots (Item.leaves buf i parts s.name)
          · exact ⟨new', by rw [hnew, hdots hisdots], fun hc => hright hc.2.2,
              fun hp h => ⟨hattr, hisdots, hclean hp.2 h⟩⟩
          · obtain ⟨c, hc, -, hoff⟩ := hchild hisdots
            refine ⟨c :: new', by rw [hnew, hc, List.append_assoc]; rfl,
              fun hc => absurd hc.2.1 hisdots, fun _ h => ?_⟩
            exact absurd h (not_shows_before hoff (Nat.lt_succ_self _))
        · rw [if_neg hdot, if_neg hdot]
          by_cases hend : Item.leaves buf i parts s.name (Item.name buf i parts long).length = 0
          · have hnot : ¬ IsDots (Item.leaves buf i parts s.name) := fun h =>
              hdot ((hstring.mpr hend).isDots_iff.mp h)
            obtain ⟨c, hc, hcname, hoff⟩ := hchild hnot
            have hshows : Shows c (i + parts, Item.name buf i parts long) :=
              ⟨hoff, by rw [hcname]; exact hstring.mpr hend⟩
            refine ⟨c :: new', by rw [hnew, hc, List.append_assoc]; rfl,
              fun hc => .cons hshows (hright hc.2.2), fun hp h => ⟨hattr, hend, hclean hp.2 ?_⟩⟩
            cases h with
            | cons _ h => exact h
          · by_cases hisdots : IsDots (Item.leaves buf i parts s.name)
            · refine ⟨new', by rw [hnew, hdots hisdots], fun hc => absurd hc.2.1 hend, fun _ h => ?_⟩
              exact absurd h (not_shows_missing hcreated fun _ => Nat.lt_succ_self _)
            · obtain ⟨c, hc, hcname, -⟩ := hchild hisdots
              refine ⟨c :: new', by rw [hnew, hc, List.append_assoc]; rfl,
                fun hc => absurd hc.2.1 hend, fun _ h => ?_⟩
              cases h with
              | cons hshows _ =>
                refine absurd (hstring.mp ?_) hend
                rw [← hcname]
                exact hshows.2
      · obtain ⟨new, hnew, hcreated⟩ := @scanLoop_created buf s i n _ fs chainsize hleft hbuffer
        rw [expected, Clean, Plain]
        refine ⟨new, hnew, fun hc => absurd hc.1 hattr, fun hp h => ?_⟩
        rw [if_neg fun hdot => hattr (hp.1 hdot)] at h
        exact absurd h (not_shows_missing hcreated fun he => absurd hattr (not_not.mpr (not_not.mp he.2.2)))

/-! ## The result -/

/-- All nodes of a directory are as they should be. -/
def Right (fs : Volume) (chainsize : Nat → Nat) (buffer namebuffer : Mem) (currentinode size : Nat)
    (items : List Item) : Prop :=
  List.Forall₂ Shows (populate fs chainsize (fun _ => true) buffer namebuffer currentinode size).1.children
    (expected buffer 0 items)

/-- Three files: `BB.TXT`, `A`, and `C`, which is read-only. -/
def sampleDir : Mem := fun x => [
  0x42, 0x42, 0x20, 0x20, 0x20, 0x20, 0x20, 0x20, 0x54, 0x58, 0x54, 0x20, 0, 0, 0, 0,
  0, 0, 0, 0, 0, 0, 0, 0, 0, 0, 0, 0, 0, 0, 0, 0,
  0x41, 0x20, 0x20, 0x20, 0x20, 0x20, 0x20, 0x20, 0x20, 0x20, 0x20, 0x20, 0, 0, 0, 0,
  0, 0, 0, 0, 0, 0, 0, 0, 0, 0, 0, 0, 0, 0, 0, 0,
  0x43, 0x20, 0x20, 0x20, 0x20, 0x20, 0x20, 0x20, 0x20, 0x20, 0x20, 0x01].getD x 0

def sampleItems : List Item := [.entry 0 [], .entry 0 [], .entry 0 []]

theorem shortEntry_at {i : Nat} (hnul : ∀ k < 11, buf (dentSize * i + k) ≠ 0)
    (he5 : buf (dentSize * i) ≠ 0xe5)
    (hattr : Dent.attributes buf (dentSize * i) &&& attrVolumeid = 0) : (Item.entry 0 []).At buf i := by
  refine ⟨⟨Nat.zero_le _, ?_, ?_, ?_⟩, he5, hattr, hnul, by simp, Nat.zero_le _, ?_⟩
  · intro d hd hd0
    omega
  · intro d hd hd0
    omega
  · intro d hd hd0
    omega
  · intro q hq hq0
    omega

theorem sampleItems_lay : Lays sampleDir 3 0 sampleItems :=
  ⟨by decide, shortEntry_at (by decide) (by decide) (by decide), by decide,
    shortEntry_at (by decide) (by decide) (by decide), by decide,
    shortEntry_at (by decide) (by decide) (by decide), .inl rfl⟩

/-- The second name goes on with what the first one has left, and the third file has no node. -/
theorem populate_mixes : Lays sampleDir 3 0 sampleItems ∧
    (populate sampleVolume (fun _ => 0) (fun _ => true) sampleDir (fun _ => 0) 3 96).1.children.map
      (fun c => (List.range 7).map c.name) =
      [[0x42, 0x42, 0x2e, 0x54, 0x58, 0x54, 0], [0x41, 0x42, 0x2e, 0x54, 0x58, 0x54, 0]] ∧
    ¬ Right sampleVolume (fun _ => 0) sampleDir (fun _ => 0) 3 96 sampleItems := by
  refine ⟨sampleItems_lay, by decide +kernel, fun h => ?_⟩
  have hlength := h.length_eq
  exact absurd hlength (by decide +kernel)

/-- **When `fat32fs_populate` creates the nodes that it should**: if the directory is clean. Where no
entry comes behind a label and the dot entries are plain, only then. -/
theorem populate_right_iff (fs : Volume) (chainsize : Nat → Nat) (buffer namebuffer : Mem)
    (currentinode size : Nat) (items : List Item) (hlays : Lays buffer (size / dentSize) 0 items) :
    (Clean buffer 0 (fun k => namebuffer (13 + k)) items →
      Right fs chainsize buffer namebuffer currentinode size items) ∧
    (Plain buffer 0 items → Right fs chainsize buffer namebuffer currentinode size items →
      Clean buffer 0 (fun k => namebuffer (13 + k)) items) := by
  obtain ⟨new, hnew, hright, hclean⟩ := @scanLoop_items buffer (.start buffer namebuffer currentinode)
    0 _ _ fs chainsize items (Nat.zero_add _) hlays (fun _ _ => rfl) rfl
  have hchildren : (populate fs chainsize (fun _ => true) buffer namebuffer currentinode size).1.children =
      new := by
    rw [populate, hnew]
    rfl
  rw [Right, hchildren]
  exact ⟨hright, hclean⟩

theorem populate_right_iff_sample :
    (Clean sampleDir 0 (fun _ => 0) sampleItems →
      Right sampleVolume (fun _ => 0) sampleDir (fun _ => 0) 3 96 sampleItems) ∧
    (Plain sampleDir 0 sampleItems → Right sampleVolume (fun _ => 0) sampleDir (fun _ => 0) 3 96 sampleItems →
      Clean sampleDir 0 (fun _ => 0) sampleItems) :=
  populate_right_iff sampleVolume (fun _ => 0) sampleDir (fun _ => 0) 3 96 sampleItems sampleItems_lay

end Lyre.Fat32

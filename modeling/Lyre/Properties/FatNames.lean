import Lyre.Properties.FatInsert

/-!
# Long names are read back

A name is cut into parts of 13 characters. The last part comes first in the directory, and tells the
entry that the name belongs to; each one says where it goes in `namebuffer`. Behind the end of the
name there is a NUL in the next field, so that every length is read back (`insertdent_reads_back`).
-/

namespace Lyre.Fat32

open Infra Infra.Bytes DirFile

/-! ## One record -/

section

variable {name : List Byte} {buf m : Mem} {checksum : Byte} {off str i j k needed : Nat}

/-- Character `j` of a record, as it is copied. -/
def Lfn.char (buf : Mem) (off j : Nat) : Byte :=
  BitVec.ofNat 8 (if j < 5 then Lfn.name1 buf off j
    else if j < 11 then Lfn.name2 buf off (j - 5) else Lfn.name3 buf off (j - 11))

theorem copylfntostring_sameOff : SameOff m (copylfntostring buf off m str) str 13 := by
  intro x hx
  rw [copylfntostring, put_sameOff _ _ _ _ x (by omega), put_sameOff _ _ _ _ x (by omega),
    put_sameOff _ _ _ _ x (by omega)]

theorem copylfntostring_char (hj : j < 13) :
    copylfntostring buf off m str (str + j) = Lfn.char buf off j := by
  rw [copylfntostring, Lfn.char]
  by_cases h5 : j < 5
  · rw [put_sameOff _ _ _ _ _ (by omega), put_sameOff _ _ _ _ _ (by omega), put_at _ _ _ h5, if_pos h5]
  · by_cases h11 : j < 11
    · have hadd : str + j = str + 5 + (j - 5) := by omega
      rw [put_sameOff _ _ _ _ _ (by omega), hadd, put_at _ _ _ (by omega), if_neg h5, if_pos h11]
    · have hadd : str + j = str + 11 + (j - 11) := by omega
      rw [hadd, put_at _ _ _ (by omega), if_neg h5, if_neg h11]

/-- A signed `char` in 16 bits, and back. -/
theorem ofNat_signExtend (b : Byte) : BitVec.ofNat 8 (b.signExtend 16).toNat = b := by
  revert b
  decide

theorem lfnchar_byte {str : List Byte} (hj : j ≤ str.length) :
    BitVec.ofNat 8 (lfnchar str j) = str.getD j 0 := by
  rcases Nat.lt_or_eq_of_le hj with hlt | rfl
  · rw [lfnchar, if_pos hlt, ofNat_signExtend]
  · rw [lfnchar, if_neg (lt_irrefl _), if_pos rfl, List.getD_eq_default _ _ (le_refl _)]
    rfl

/-- The characters of a record are those of its part of the name and the NUL behind it. -/
theorem lfnEntry_char (hj : j < 13) (hin : (i - 1) * 13 + j ≤ name.length) :
    Lfn.char (lfnEntry name needed checksum i) 0 j = name.getD ((i - 1) * 13 + j) 0 := by
  have hdrop : ∀ a b, (name.drop a).getD b 0 = name.getD (a + b) 0 := by
    intro a b
    simp [List.getD_eq_getElem?_getD]
  rw [Lfn.char, lfnEntry]
  generalize write (write (write (fun _ => 0) 11 1 attrLfn.toNat) 0 1
    (i ||| if i + 1 = needed then 0x40 else 0)) 13 1 checksum.toNat = ent
  generalize hbase : (i - 1) * 13 = base at hin
  have hlen : (name.drop base).length = name.length - base := List.length_drop
  by_cases h5 : j < 5
  · rw [if_pos h5, Lfn.name1, read_sameOff copytolfn_sameOff (.inr (by omega)),
      read_sameOff copytolfn_sameOff (.inr (by omega)), Nat.zero_add, copytolfn_read h5,
      lfnchar_byte (by omega), hdrop]
  · have hcopied : copied (name.drop base) 5 = 5 := if_neg (by omega)
    have hlen₂ : ((name.drop base).drop 5).length = name.length - base - 5 := by
      rw [List.length_drop, hlen]
    rw [if_neg h5, hcopied]
    by_cases h11 : j < 11
    · rw [if_pos h11, Lfn.name2, read_sameOff copytolfn_sameOff (.inr (by omega)), Nat.zero_add,
        copytolfn_read (by omega), lfnchar_byte (by omega), List.drop_drop, hdrop]
      congr 1
      omega
    · have hcopied₂ : copied ((name.drop base).drop 5) 6 = 6 := if_neg (by omega)
      rw [if_neg h11, hcopied₂, Lfn.name3, Nat.zero_add, copytolfn_read (by omega),
        lfnchar_byte (by rw [List.length_drop]; omega), List.drop_drop, List.drop_drop, hdrop]
      congr 1
      omega

theorem read_shift {m' : Mem} {a c : Nat} :
    ∀ {n b : Nat}, (∀ x, b ≤ x → x < b + n → m' (a + x) = m (c + x)) → read m' (a + b) n = read m (c + b) n
  | 0, _, _ => rfl
  | n + 1, b, h => by
    rw [Bytes.read, Bytes.read, h b (le_refl b) (by omega), Nat.add_assoc, Nat.add_assoc,
      read_shift fun x hx hx' => h x (by omega) (by omega)]

theorem Lfn.char_congr {m' : Mem} {a : Nat}
    (h : ∀ k, 1 ≤ k → k < dentSize → m' (off + k) = m (a + k)) (hj : j < 13) :
    Lfn.char m' off j = Lfn.char m a j := by
  have hread : ∀ b, 1 ≤ b → b + 2 ≤ dentSize → read m' (off + b) 2 = read m (a + b) 2 := fun b hb hb' =>
    read_shift fun x hx hx' => h x (by omega) (by omega)
  unfold dentSize at hread
  simp only [Lfn.char, Lfn.name1, Lfn.name2, Lfn.name3, Nat.add_assoc]
  split_ifs
  · rw [hread _ (by omega) (by omega)]
  · rw [hread _ (by omega) (by omega)]
  · rw [hread _ (by omega) (by omega)]

theorem lfnchecksum_congr {f g : Nat → Byte} (h : ∀ k < 11, f k = g k) : lfnchecksum f = lfnchecksum g := by
  rw [lfnchecksum, lfnchecksum]
  refine List.foldl_ext _ _ _ fun sum k hk => ?_
  rw [h k (List.mem_range.mp hk)]

end

/-! ## One turn of the loop -/

/-- Record `i` is taken for a part of a long name. -/
def LfnAt (buf : Mem) (i : Nat) : Prop :=
  buf (dentSize * i) ≠ 0 ∧ buf (dentSize * i) ≠ 0xe5 ∧ IsLfn buf (dentSize * i)

instance (buf : Mem) (i : Nat) : Decidable (LfnAt buf i) := inferInstanceAs (Decidable (_ ∧ _ ∧ _))

/-- Record `i` is taken for an entry. -/
def EntryAt (buf : Mem) (i : Nat) : Prop :=
  buf (dentSize * i) ≠ 0 ∧ buf (dentSize * i) ≠ 0xe5 ∧ ¬ IsLfn buf (dentSize * i)

theorem record_cases (buf : Mem) (i : Nat) : buf (dentSize * i) = 0 ∨ buf (dentSize * i) = 0xe5 ∨
    LfnAt buf i ∨ EntryAt buf i := by
  unfold LfnAt EntryAt
  tauto

theorem not_volumeid (a : Byte) (h : a &&& attrLfn = 0) : a &&& attrVolumeid = 0 := by
  revert a
  decide

/-- Record `i` has been read. -/
def Scan.note (s : Scan) (i : Nat) : Scan := { s with reads := s.reads ++ [i] }

/-- A turn, by what is found in the part of the directory that has not been read yet. -/
theorem scanLoop_turn {s : Scan} {buf : Mem} {i : Nat} (left : Nat) (fs : Volume)
    (chainsize : Nat → Nat) (memory : Nat → Bool)
    (hbuffer : ∀ x, dentSize * i ≤ x → s.buffer x = buf x) :
    (buf (dentSize * i) = 0 → scanLoop fs chainsize memory (left + 1) i s = (s.note i, true)) ∧
    (buf (dentSize * i) = 0xe5 → scanLoop fs chainsize memory (left + 1) i s =
      scanLoop fs chainsize memory left (i + 1) (s.note i)) ∧
    (LfnAt buf i → scanLoop fs chainsize memory (left + 1) i s =
      if ((s.note i).lfn i).2 then scanLoop fs chainsize memory left (i + 1) ((s.note i).lfn i).1
      else (((s.note i).lfn i).1, false)) ∧
    (EntryAt buf i → scanLoop fs chainsize memory (left + 1) i s =
      if ((s.note i).entry fs chainsize (memory i) i).2 then
        scanLoop fs chainsize memory left (i + 1) ((s.note i).entry fs chainsize (memory i) i).1
      else (((s.note i).entry fs chainsize (memory i) i).1, false)) := by
  have hmark : Dent.name s.buffer (dentSize * i) 0 = buf (dentSize * i) := hbuffer _ (le_refl _)
  have hattr : Dent.attributes s.buffer (dentSize * i) = Dent.attributes buf (dentSize * i) :=
    hbuffer _ (Nat.le_add_right _ 11)
  have hiff : IsLfn s.buffer (dentSize * i) ↔ IsLfn buf (dentSize * i) := by
    rw [IsLfn, IsLfn, hattr]
  rw [scanLoop]
  simp only [hmark]
  refine ⟨fun h0 => ?_, fun he5 => ?_, fun hlfn => ?_, fun hentry => ?_⟩
  · rw [if_pos h0, Scan.note]
  · rw [if_neg (by rw [he5]; decide), if_pos he5, Scan.note]
  · rw [if_neg hlfn.1, if_neg hlfn.2.1, if_pos (hiff.mpr hlfn.2.2), Scan.note]
  · have hnot : ¬ IsLfn s.buffer (dentSize * i) := fun hlfn => hentry.2.2 (hiff.mp hlfn)
    rw [if_neg hentry.1, if_neg hentry.2.1, if_neg hnot,
      if_neg (not_not.mpr (not_volumeid _ (not_not.mp hnot))), Scan.note]

/-! ## The records of a name -/

/-- The order of a record without the bit of the last part. -/
def orderAt (buf : Mem) (i : Nat) : Nat := (buf (dentSize * i) &&& 0x1f).toNat

/-- The `parts` records in front of the entry at `p` are the parts of its name, the last one first. -/
structure Parts (buf : Mem) (p parts : Nat) : Prop where
  room : parts ≤ p
  lfnAt : ∀ d, 0 < d → d ≤ parts → LfnAt buf (p - d)
  order : ∀ d, 0 < d → d ≤ parts → orderAt buf (p - d) = d
  checksum : ∀ d, 0 < d → d ≤ parts →
    buf (dentSize * (p - d) + 13) = lfnchecksum (Dent.name buf (dentSize * p))

/-- Character `q` of the name. -/
def partChar (buf : Mem) (p q : Nat) : Byte := Lfn.char buf (dentSize * (p - (q / 13 + 1))) (q % 13)

section

variable {s₀ s : Scan} {buf : Mem} {p parts d left : Nat} {fs : Volume}
  {chainsize : Nat → Nat} {memory : Nat → Bool}

/-- `s` is the state in front of the first `d` parts of a name, which has been entered at `s₀`. -/
structure Reading (buf : Mem) (p parts : Nat) (s₀ : Scan) (d : Nat) (s : Scan) : Prop where
  buffer : ∀ x, dentSize * (p - d) ≤ x → s.buffer x = buf x
  islfn : s.islfn = decide (d < parts)
  checksum : d < parts → s.checksum = lfnchecksum (Dent.name buf (dentSize * p))
  namebuffer : ∀ q, s.namebuffer (13 + q) =
    if d * 13 ≤ q ∧ q < parts * 13 then partChar buf p q else s₀.namebuffer (13 + q)
  children : s.children = s₀.children
  currentinode : s.currentinode = s₀.currentinode

/-- What `Scan.lfn` does with the record of part `d + 1`. -/
theorem Reading.lfn (h : Reading buf p parts s₀ (d + 1) s) (hparts : Parts buf p parts)
    (hd : d + 1 ≤ parts) :
    (s.lfn (p - (d + 1))).2 = true ∧ Reading buf p parts s₀ d (s.lfn (p - (d + 1))).1 := by
  have hroom := hparts.room
  have hsum := hparts.checksum (d + 1) (Nat.succ_pos d) hd
  have hord := hparts.order (d + 1) (Nat.succ_pos d) hd
  generalize hi : p - (d + 1) = i at hsum hord
  have hip : i + (d + 1) = p := by omega
  have hbase : ∀ x, dentSize * i ≤ x → s.buffer x = buf x := fun x hx =>
    h.buffer x (by rw [hi]; exact hx)
  have horder : (Lfn.order s.buffer (dentSize * i) &&& 0x1f).toNat = d + 1 := by
    rw [Lfn.order, hbase _ (le_refl _)]
    exact hord
  -- the order is all that changes in the buffer
  have hbuffer : ∀ x, dentSize * i < x →
      Function.update s.buffer (dentSize * i) (BitVec.ofNat 8 (d + 1)) x = buf x := fun x hx => by
    rw [Function.update_of_ne (by omega), hbase x (by omega)]
  have hafter : ∀ x, dentSize * (p - d) ≤ x →
      Function.update s.buffer (dentSize * i) (BitVec.ofNat 8 (d + 1)) x = buf x := by
    intro x hx
    have hlt : dentSize * i < dentSize * (p - d) := Nat.mul_lt_mul_of_pos_left (by omega) (by decide)
    exact hbuffer x (by omega)
  have hchars : ∀ q, copylfntostring
      (Function.update s.buffer (dentSize * i) (BitVec.ofNat 8 (d + 1))) (dentSize * i)
      s.namebuffer ((d + 1) * 13) (13 + q) =
        if d * 13 ≤ q ∧ q < parts * 13 then partChar buf p q else s₀.namebuffer (13 + q) := by
    intro q
    by_cases hin : d * 13 ≤ q ∧ q < (d + 1) * 13
    · obtain ⟨j, rfl⟩ := Nat.exists_eq_add_of_le hin.1
      have hdiv : (d * 13 + j) / 13 = d := by omega
      have hmod : (d * 13 + j) % 13 = j := by omega
      have hle : (d + 1) * 13 ≤ parts * 13 := Nat.mul_le_mul_right 13 hd
      rw [show 13 + (d * 13 + j) = (d + 1) * 13 + j by omega, copylfntostring_char (by omega),
        if_pos (by omega), partChar, hdiv, hmod, hi]
      exact Lfn.char_congr (fun k hk hk' => hbuffer _ (by omega)) (by omega)
    · rw [copylfntostring_sameOff _ (by omega), h.namebuffer q]
      congr 1
      exact propext (by omega)
  rw [Scan.lfn]
  simp only [horder]
  by_cases hfirst : s.islfn = false
  · rw [if_pos hfirst]
    refine ⟨rfl, hafter, (decide_eq_true hd).symm, fun _ => ?_, hchars, h.children, h.currentinode⟩
    refine lfnchecksum_congr fun k hk => ?_
    rw [Dent.name, hip]
    refine hafter _ ((Nat.mul_le_mul_left _ (Nat.sub_le p d)).trans (Nat.le_add_right _ k))
  · rw [if_neg hfirst]
    have hmore : d + 1 < parts := by
      rw [h.islfn, decide_eq_false_iff_not, Decidable.not_not] at hfirst
      exact hfirst
    have hgood : Lfn.checksum (Function.update s.buffer (dentSize * i) (BitVec.ofNat 8 (d + 1)))
        (dentSize * i) = s.checksum := by
      rw [Lfn.checksum, hbuffer _ (by omega), hsum, h.checksum hmore]
    rw [if_neg (not_not.mpr hgood)]
    refine ⟨rfl, hafter, ?_, fun _ => h.checksum hmore, hchars, h.children, h.currentinode⟩
    rw [decide_eq_true (Nat.lt_of_succ_le hd)]
    exact eq_true_of_ne_false hfirst

theorem Reading.turn (h : Reading buf p parts s₀ (d + 1) s) (hparts : Parts buf p parts)
    (hd : d + 1 ≤ parts) :
    ∃ s', scanLoop fs chainsize memory (left + 1) (p - (d + 1)) s =
      scanLoop fs chainsize memory left (p - d) s' ∧ Reading buf p parts s₀ d s' := by
  have hroom := hparts.room
  have hnext : p - (d + 1) + 1 = p - d := by omega
  have hread : Reading buf p parts s₀ (d + 1) (s.note (p - (d + 1))) :=
    ⟨h.buffer, h.islfn, h.checksum, h.namebuffer, h.children, h.currentinode⟩
  obtain ⟨hok, hlfn⟩ := hread.lfn hparts hd
  obtain ⟨-, -, hturn, -⟩ := scanLoop_turn left fs chainsize memory h.buffer
  refine ⟨_, ?_, hlfn⟩
  rw [hturn (hparts.lfnAt (d + 1) (Nat.succ_pos d) hd), if_pos hok, hnext]

theorem Reading.run (hparts : Parts buf p parts) (hd : d ≤ parts) (h : Reading buf p parts s₀ d s) :
    ∃ s', scanLoop fs chainsize memory (d + left) (p - d) s = scanLoop fs chainsize memory left p s' ∧
      Reading buf p parts s₀ 0 s' := by
  induction d generalizing s with
  | zero => exact ⟨s, by rw [Nat.zero_add, Nat.sub_zero], h⟩
  | succ d ih =>
    obtain ⟨s₁, hturn, h₁⟩ := @Reading.turn _ _ _ _ _ _ (d + left) fs chainsize memory h hparts hd
    obtain ⟨s', hrun, h'⟩ := ih (by omega) h₁
    refine ⟨s', ?_, h'⟩
    rw [Nat.add_right_comm, hturn, hrun]

theorem Reading.start (hlfn : s.islfn = false)
    (hbuffer : ∀ x, dentSize * (p - parts) ≤ x → s.buffer x = buf x) :
    Reading buf p parts s parts s := by
  refine ⟨hbuffer, ?_, fun hd => by omega, fun q => (if_neg (by omega)).symm, rfl, rfl⟩
  rw [hlfn, eq_comm, decide_eq_false_iff_not]
  exact lt_irrefl parts

end

/-! ### The records that `insertdent` writes -/

section

variable {dir dir' : DirFile} {entry : Mem} {name : List Byte} {moved : Option Mem} {p : Nat}

theorem Inserted.short (h : Inserted dir entry name moved p dir') {k : Nat} (hk : k < dentSize) :
    dir'.data (dentSize * p + k) = entryAt entry p k := by
  have hget := h.get p k hk
  rwa [get_inside h.inside, if_pos rfl] at hget

theorem Inserted.long (h : Inserted dir entry name moved p dir') {d k : Nat} (hd : 0 < d)
    (hdn : d ≤ entriesneeded name - 1) (hk : k < dentSize) : dir'.data (dentSize * (p - d) + k) =
      lfnEntry name (entriesneeded name) (lfnchecksum (entryAt entry p)) d k := by
  have hinside := h.inside
  have hroom := h.room
  have hget := h.get (p - d) k hk
  rw [get_inside (by omega), if_neg (by omega), if_pos (by omega)] at hget
  rw [hget]
  congr 1
  omega

theorem Inserted.parts (h : Inserted dir entry name moved p dir') (hname : name.length ≤ 255) :
    Parts dir'.data p (entriesneeded name - 1) := by
  have hbits : ∀ d, d ≤ entriesneeded name - 1 → _ := fun d hd =>
    order_bits d (by unfold entriesneeded at hd; omega)
      (if d + 1 = entriesneeded name then 0x40 else 0) (by split <;> simp)
  have hmark : ∀ d, 0 < d → d ≤ entriesneeded name - 1 → dir'.data (dentSize * (p - d)) =
      BitVec.ofNat 8 (d ||| if d + 1 = entriesneeded name then 0x40 else 0) := fun d hd hdn =>
    (h.long hd hdn (by decide)).trans lfnEntry_order
  have hroom := h.room
  refine ⟨by omega, fun d hd hdn => ⟨?_, ?_, ?_⟩, fun d hd hdn => ?_, fun d hd hdn => ?_⟩
  · rw [hmark d hd hdn]
    exact (hbits d hdn).2.2 (by omega)
  · rw [hmark d hd hdn]
    exact (hbits d hdn).2.1
  · have hattr : Dent.attributes dir'.data (dentSize * (p - d)) = attrLfn :=
      (h.long hd hdn (by decide)).trans lfnEntry_attributes
    rw [IsLfn, hattr]
    decide
  · rw [orderAt, hmark d hd hdn]
    exact (hbits d hdn).1
  · have hsum : dir'.data (dentSize * (p - d) + 13) = lfnchecksum (entryAt entry p) :=
      (h.long hd hdn (by decide)).trans lfnEntry_checksum
    rw [hsum]
    exact lfnchecksum_congr fun k hk => (h.short (by unfold dentSize; omega)).symm

theorem Inserted.chars (h : Inserted dir entry name moved p dir') {q : Nat} (hq : q ≤ name.length) :
    q < (entriesneeded name - 1) * 13 ∧ partChar dir'.data p q = name.getD q 0 := by
  have hlt : q < (entriesneeded name - 1) * 13 := by
    unfold entriesneeded
    omega
  have hmod : q % 13 < 13 := Nat.mod_lt q (by decide)
  have hsplit : (q / 13 + 1 - 1) * 13 + q % 13 = q := by omega
  refine ⟨hlt, ?_⟩
  rw [partChar, Lfn.char_congr
    (fun k _ hk => (h.long (Nat.succ_pos _) (by omega) hk).trans (by rw [Nat.zero_add])) hmod,
    lfnEntry_char hmod (by rw [hsplit]; exact hq), hsplit]

end

/-! ## Strings -/

/-- The string at the beginning of a memory. -/
structure IsString (m : Mem) (name : List Byte) : Prop where
  nonzero : ∀ b ∈ name, b ≠ 0
  getD : ∀ q ≤ name.length, m q = name.getD q 0

/-- A dot entry, by `strcmp`. -/
def IsDots (m : Mem) : Prop := (m 0 = 46 ∧ m 1 = 0) ∨ (m 0 = 46 ∧ m 1 = 46 ∧ m 2 = 0)

instance (m : Mem) : Decidable (IsDots m) := inferInstanceAs (Decidable (_ ∨ _))

/-- The names `.` and `..`. -/
abbrev DotName (name : List Byte) : Prop := name = [46] ∨ name = [46, 46]

theorem IsString.isDots_iff {m : Mem} {name : List Byte} (h : IsString m name) :
    IsDots m ↔ DotName name := by
  have hq := h.getD
  rcases name with - | ⟨a, - | ⟨b, - | ⟨c, l⟩⟩⟩
  · have h0 := hq 0 (le_refl _)
    simp only [List.getD_nil] at h0
    simp [IsDots, DotName, h0]
  · have h0 := hq 0 (by simp)
    have h1 := hq 1 (by simp)
    simp only [List.getD_cons_zero, List.getD_cons_succ, List.getD_nil] at h0 h1
    simp [IsDots, DotName, h0, h1]
  · have hb : b ≠ 0#8 := h.nonzero b (by simp)
    have h0 := hq 0 (by simp)
    have h1 := hq 1 (by simp)
    have h2 := hq 2 (by simp)
    simp only [List.getD_cons_zero, List.getD_cons_succ, List.getD_nil] at h0 h1 h2
    simp [IsDots, DotName, h0, h1, h2, hb]
  · have hb : b ≠ 0#8 := h.nonzero b (by simp)
    have hc : c ≠ 0#8 := h.nonzero c (by simp)
    have h0 := hq 0 (by simp)
    have h1 := hq 1 (by simp)
    have h2 := hq 2 (by simp)
    simp only [List.getD_cons_zero, List.getD_cons_succ] at h0 h1 h2
    simp [IsDots, DotName, h0, h1, h2, hb, hc]

/-! ## The entry -/

/-- The memory that `namebuffer` points to. -/
def Scan.name (s : Scan) : Mem := fun k => s.namebuffer (13 + k)

section

variable {s : Scan} {buf : Mem} {i left : Nat} {fs : Volume} {chainsize : Nat → Nat}

/-- A turn at an entry for which there is memory: whether there is a node, and which, depends on the
name that is then in `namebuffer`. -/
structure Listed (i : Nat) (name : Mem) (s s' : Scan) : Prop where
  buffer : s'.buffer = s.buffer
  islfn : s'.islfn = false
  named : s'.name = name
  dots : IsDots name → s'.children = s.children
  child : ¬ IsDots name →
    ∃ c, s'.children = s.children ++ [c] ∧ c.name = name ∧ c.diroffset = dentSize * i

theorem shortName_fields (s : Scan) (i : Nat) : (s.shortName i).buffer = s.buffer ∧
    (s.shortName i).reads = s.reads ∧ (s.shortName i).children = s.children := by
  rw [Scan.shortName]
  split_ifs <;> exact ⟨rfl, rfl, rfl⟩

theorem shortName_congr {t : Scan} (hbuffer : s.buffer = t.buffer) (hname : s.namebuffer = t.namebuffer) :
    (s.shortName i).name = (t.shortName i).name := by
  have hsame : (s.shortName i).namebuffer = (t.shortName i).namebuffer := by
    simp only [Scan.shortName, hbuffer]
    split_ifs <;> simp [hname]
  funext k
  exact congrFun hsame (13 + k)

theorem entry_listed (s : Scan) (fs : Volume) (chainsize : Nat → Nat) (i : Nat) :
    (s.entry fs chainsize true i).2 = true ∧
      Listed i (if s.islfn = false then s.shortName i else s).name s (s.entry fs chainsize true i).1 := by
  have hfields : (if s.islfn = false then s.shortName i else s).buffer = s.buffer ∧
      (if s.islfn = false then s.shortName i else s).children = s.children := by
    split_ifs
    · exact ⟨(shortName_fields _ i).1, (shortName_fields _ i).2.2⟩
    · exact ⟨rfl, rfl⟩
  rw [Scan.entry]
  generalize (if s.islfn = false then s.shortName i else s) = s₂ at hfields ⊢
  obtain ⟨hb, hc⟩ := hfields
  by_cases hdots : IsDots s₂.name
  · have hdot : Scan.IsDot { s₂ with islfn := false } := hdots
    simp only [if_pos hdot]
    exact ⟨trivial, hb, rfl, rfl, fun _ => hc, fun hno => absurd hdots hno⟩
  · have hdot : ¬ Scan.IsDot { s₂ with islfn := false } := hdots
    simp only [if_neg hdot, Bool.true_eq_false, if_false]
    exact ⟨trivial, hb, rfl, rfl, fun hyes => absurd hyes hdots, fun _ => ⟨_, by rw [← hc], rfl, rfl⟩⟩

theorem scanLoop_listed (hbuffer : ∀ x, dentSize * i ≤ x → s.buffer x = buf x) (hentry : EntryAt buf i) :
    ∃ s', scanLoop fs chainsize (fun _ => true) (left + 1) i s =
        scanLoop fs chainsize (fun _ => true) left (i + 1) s' ∧
      Listed i (if s.islfn = false then s.shortName i else s).name s s' := by
  obtain ⟨-, -, -, hturn⟩ := scanLoop_turn left fs chainsize (fun _ => true) hbuffer
  obtain ⟨hok, hlisted⟩ := entry_listed (s.note i) fs chainsize i
  -- that the record is noted changes no name
  have hnote : (if s.islfn = false then (s.note i).shortName i else s.note i).name =
      (if s.islfn = false then s.shortName i else s).name := by
    split_ifs
    · exact shortName_congr rfl rfl
    · rfl
  refine ⟨_, by rw [hturn hentry, if_pos hok], hlisted.buffer, hlisted.islfn, ?_, ?_, ?_⟩
  · rw [← hnote]
    exact hlisted.named
  · rw [← hnote]
    exact hlisted.dots
  · rw [← hnote]
    exact hlisted.child

end

/-- A node for the name, if it is no dot entry. -/
def Named (name : List Byte) (children : List Child) : Prop :=
  if DotName name then children = [] else ∃ child, children = [child] ∧ IsString child.name name

/-- **What is inserted is read back**: the records of a name and its entry, from the first of them on
and in whatever state the records before them have left. -/
theorem insertdent_reads_back (dir dir' : DirFile) (grow : Nat → Bool) (entry : Mem) (name : List Byte)
    (off : Nat) (fs : Volume) (chainsize : Nat → Nat) (s : Scan)
    (hname : name.length ≤ 255) (hnul : ∀ b ∈ name, b ≠ 0)
    (hattr : Dent.attributes entry 0 &&& attrLfn = 0)
    (hinsert : insertdent dir grow entry name = some (dir', off))
    (hlfn : s.islfn = false)
    (hbuffer : ∀ x, dentSize * (off / dentSize + 1 - entriesneeded name) ≤ x →
      s.buffer x = dir'.data x) :
    ∃ s' children, scanLoop fs chainsize (fun _ => true) (entriesneeded name)
        (off / dentSize + 1 - entriesneeded name) s = (s', true) ∧
      s'.islfn = false ∧ IsString s'.name name ∧
      s'.children = s.children ++ children ∧ Named name children := by
  obtain ⟨p, moved, rfl, hins, -⟩ := insertdent_spec hinsert
  rw [Nat.mul_div_cancel_left p (by decide)] at hbuffer ⊢
  have hneeded : 2 ≤ entriesneeded name := Nat.le_add_right 2 _
  have hroom := hins.room
  have hfirst : p - (entriesneeded name - 1) = p + 1 - entriesneeded name := by omega
  rw [← hfirst] at hbuffer ⊢
  obtain ⟨s₁, hrun, h₁⟩ := @Reading.run _ _ _ _ _ _ 1 fs chainsize (fun _ => true)
    (hins.parts hname) (le_refl _) (.start hlfn hbuffer)
  rw [show entriesneeded name - 1 + 1 = entriesneeded name by omega] at hrun
  have hentry : EntryAt dir'.data p := by
    have hmark : dir'.data (dentSize * p) = (shortname p).getD 0 0 :=
      (hins.short (show 0 < dentSize by decide)).trans
        (by rw [entryAt, Bytes.put, if_pos ⟨le_refl 0, by decide⟩])
    have hat : Dent.attributes dir'.data (dentSize * p) = Dent.attributes entry 0 :=
      (hins.short (by decide)).trans (put_sameOff entry 0 11 _ 11 (by decide))
    refine ⟨by rw [hmark]; exact (shortname_head_mark p).1,
      by rw [hmark]; exact (shortname_head_mark p).2, ?_⟩
    rw [IsLfn, hat, not_not]
    exact hattr
  have hlong : s₁.islfn = true := by
    rw [h₁.islfn]
    exact decide_eq_true (by omega)
  obtain ⟨s', hturn, hlisted⟩ := @scanLoop_listed s₁ dir'.data p 0 fs chainsize h₁.buffer hentry
  rw [hlong, if_neg (by decide)] at hlisted
  have hstring : IsString s₁.name name := by
    refine ⟨hnul, fun q hq => ?_⟩
    obtain ⟨hlt, hchar⟩ := hins.chars hq
    rw [Scan.name, h₁.namebuffer q, if_pos ⟨by omega, hlt⟩, hchar]
  have hdots := hstring.isDots_iff
  have hend : scanLoop fs chainsize (fun _ => true) (entriesneeded name)
      (p - (entriesneeded name - 1)) s = (s', true) := by
    rw [hrun, hturn]
    rfl
  have hname' : IsString s'.name name := by
    rw [hlisted.named]
    exact hstring
  by_cases hdot : DotName name
  · refine ⟨s', [], hend, hlisted.islfn, hname', ?_, ?_⟩
    · rw [hlisted.dots (hdots.mpr hdot), h₁.children, List.append_nil]
    · rw [Named, if_pos hdot]
  · obtain ⟨c, hc, hcname, -⟩ := hlisted.child fun hd => hdot (hdots.mp hd)
    refine ⟨s', [c], hend, hlisted.islfn, hname', by rw [hc, h₁.children], ?_⟩
    rw [Named, if_neg hdot]
    exact ⟨c, rfl, hcname ▸ hstring⟩

theorem insertdent_reads_back_small : ∃ dir' s' children,
    insertdent (smallDir fun _ => 0) (fun _ => true) (fun _ => 0) [0xe4, 0x62] = some (dir', 32) ∧
    scanLoop sampleVolume (fun _ => 0) (fun _ => true) 2 0 (.start dir'.data (fun _ => 1) 3) = (s', true) ∧
    s'.islfn = false ∧ IsString s'.name [0xe4, 0x62] ∧
    s'.children = [] ++ children ∧ Named [0xe4, 0x62] children := by
  have hrun : (insertdent (smallDir fun _ => 0) (fun _ => true) (fun _ => 0) [0xe4, 0x62]).map Prod.snd =
      some 32 := by decide +kernel
  obtain ⟨⟨dir', off⟩, h, rfl⟩ := Option.map_eq_some_iff.mp hrun
  obtain ⟨s', children, hrest⟩ := insertdent_reads_back _ dir' _ _ _ _ sampleVolume (fun _ => 0)
    (.start dir'.data (fun _ => 1) 3) (by decide) (by decide) (by decide) h rfl fun _ _ => rfl
  exact ⟨dir', s', children, h, hrest⟩

end Lyre.Fat32

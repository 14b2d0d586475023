import Lyre.Fs.FatDir
import Lyre.Properties.FatBytes

/-!
# Where `insertdent` puts its records

A directory is looked at as records without end, where the ones behind its clusters are zeros
(`DirFile.get`): a write then sets one record, also when the directory grows. The search ends at the
end mark, at a run of deleted records that is long enough, or at the end of the directory
(`searchLoop_spec`). In the last case nobody looks at how much room there is in front of the entry.
-/

namespace Lyre.Fat32

open Infra Infra.Bytes

variable {dir dir' dir₁ : DirFile} {grow : Nat → Bool} {buffer : Nat → Byte} {name : List Byte}
  {entry : Mem} {checksum : Byte} {e i j k p off needed left found : Nat}

/-! ## Names in records -/

/-- Character `i` of a record that begins with `str`. -/
def lfnchar (str : List Byte) (i : Nat) : Nat :=
  if i < str.length then ((str.getD i 0).signExtend 16).toNat
  else if i = str.length then 0 else 0xffff

theorem lfnchar_lt (str : List Byte) (i : Nat) : lfnchar str i < 256 ^ 2 := by
  unfold lfnchar
  split_ifs
  · exact ((str.getD i 0).signExtend 16).isLt
  · decide
  · decide

section

variable {str : List Byte} {m : Mem} {lfn slen limit : Nat} {putnull : Bool}

theorem copytolfnLoop_spec (hslen : slen = str.length - i) (hput : putnull = decide (str.length < i)) :
    SameOff m (copytolfnLoop str lfn left i slen putnull m) (lfn + 2 * i) (2 * left) ∧
      ∀ j, i ≤ j → j < i + left →
        read (copytolfnLoop str lfn left i slen putnull m) (lfn + 2 * j) 2 = lfnchar str j := by
  induction left generalizing i slen putnull m with
  | zero => exact ⟨.refl _ _ _, fun j hj hji => by omega⟩
  | succ left ih =>
    -- one turn, whatever character it stores
    have hturn : ∀ slen' putnull', slen' = str.length - (i + 1) →
        putnull' = decide (str.length < i + 1) →
        SameOff m (copytolfnLoop str lfn left (i + 1) slen' putnull'
          (write m (lfn + 2 * i) 2 (lfnchar str i))) (lfn + 2 * i) (2 * (left + 1)) ∧
        ∀ j, i ≤ j → j < i + (left + 1) → read (copytolfnLoop str lfn left (i + 1) slen' putnull'
          (write m (lfn + 2 * i) 2 (lfnchar str i))) (lfn + 2 * j) 2 = lfnchar str j := by
      intro slen' putnull' hs hp
      obtain ⟨hsame, hread⟩ := @ih (i + 1) (write m (lfn + 2 * i) 2 (lfnchar str i)) slen' putnull' hs hp
      refine ⟨(write_sameOff m _ 2 _).trans' hsame (by omega) (by omega), fun j hj hji => ?_⟩
      rcases Nat.eq_or_lt_of_le hj with rfl | hlt
      · rw [read_sameOff hsame (.inr (by omega)), read_write, Nat.mod_eq_of_lt (lfnchar_lt str i)]
      · exact hread j hlt (by omega)
    rw [copytolfnLoop]
    by_cases h0 : slen = 0
    · rw [if_pos h0]
      by_cases hnull : putnull
      · rw [if_pos hnull]
        rw [hput, decide_eq_true_eq] at hnull
        have hchar : lfnchar str i = 0xffff := by
          rw [lfnchar, if_neg (by omega), if_neg (by omega)]
        rw [hput, ← hchar]
        exact hturn _ _ (by omega) (by rw [decide_eq_decide]; omega)
      · rw [if_neg hnull]
        rw [hput, decide_eq_true_eq] at hnull
        have hchar : lfnchar str i = 0 := by
          rw [lfnchar, if_neg (by omega), if_pos (by omega)]
        rw [← hchar]
        exact hturn _ _ (by omega) (by simp; omega)
    · rw [if_neg h0]
      have hchar : lfnchar str i = ((str.getD i 0).signExtend 16).toNat := if_pos (by omega)
      rw [← hchar]
      exact hturn _ _ (by omega) (by rw [hput]; simp; omega)

theorem copytolfn_sameOff : SameOff m (copytolfn str m lfn limit) lfn (2 * limit) :=
  (copytolfnLoop_spec (i := 0) rfl (by simp)).1

theorem copytolfn_read (hj : j < limit) : read (copytolfn str m lfn limit) (lfn + 2 * j) 2 = lfnchar str j :=
  (copytolfnLoop_spec (i := 0) rfl (by simp)).2 j (Nat.zero_le j) (by omega)

end

/-- The record in front of its characters. -/
def lfnHead (entriesneeded : Nat) (checksum : Byte) (i : Nat) : Mem :=
  write (write (write (fun _ => 0) 11 1 attrLfn.toNat) 0 1
    (i ||| if i + 1 = entriesneeded then 0x40 else 0)) 13 1 checksum.toNat

theorem lfnEntry_head (hk : k = 0 ∨ k = 11 ∨ k = 13) :
    lfnEntry name needed checksum i k = lfnHead needed checksum i k := by
  have h₁ : ∀ (str : List Byte) (m : Mem), copytolfn str m 1 5 k = m k := fun str m =>
    copytolfn_sameOff k (by omega)
  have h₂ : ∀ (str : List Byte) (m : Mem), copytolfn str m 14 6 k = m k := fun str m =>
    copytolfn_sameOff k (by omega)
  have h₃ : ∀ (str : List Byte) (m : Mem), copytolfn str m 28 2 k = m k := fun str m =>
    copytolfn_sameOff k (by omega)
  rw [lfnEntry, h₃, h₂, h₁, lfnHead]

theorem lfnEntry_order : Lfn.order (lfnEntry name needed checksum i) 0 =
    BitVec.ofNat 8 (i ||| if i + 1 = needed then 0x40 else 0) := by
  rw [Lfn.order, lfnEntry_head (.inl rfl), lfnHead]
  simp [write]

theorem lfnEntry_attributes : Dent.attributes (lfnEntry name needed checksum i) 0 = attrLfn := by
  rw [Dent.attributes, lfnEntry_head (.inr (.inl rfl)), lfnHead]
  simp [write]

theorem lfnEntry_checksum : Lfn.checksum (lfnEntry name needed checksum i) 0 = checksum := by
  rw [Lfn.checksum, lfnEntry_head (.inr (.inr rfl)), lfnHead]
  simp [write]

/-- The order of a record: it is no mark, and it is read as the number of the part. -/
theorem order_bits : ∀ i < 32, ∀ last : Nat, last = 0 ∨ last = 0x40 →
    (BitVec.ofNat 8 (i ||| last) &&& 0x1f).toNat = i ∧
      BitVec.ofNat 8 (i ||| last) ≠ 0xe5 ∧ (i ≠ 0 → BitVec.ofNat 8 (i ||| last) ≠ 0) := by
  intro i hi last hlast
  have hall : ∀ i < 32, ∀ last ∈ [0, 0x40], (BitVec.ofNat 8 (i ||| last) &&& 0x1f).toNat = i ∧
      BitVec.ofNat 8 (i ||| last) ≠ 0xe5 ∧ (i ≠ 0 → BitVec.ofNat 8 (i ||| last) ≠ 0) := by decide
  exact hall i hi last (by simpa using hlast)

theorem shortname_head (n : Nat) : ∃ d < 10, (shortname n).getD 0 0 = BitVec.ofNat 8 (48 + d) := by
  have hdigits : ∀ b ∈ shortname n, ∃ d < 10, b = BitVec.ofNat 8 (48 + d) := by
    intro b hb
    rcases List.mem_append.mp (List.mem_of_mem_take hb) with hb | hb
    · exact ⟨0, by decide, List.eq_of_mem_replicate hb⟩
    · obtain ⟨d, hd, rfl⟩ := List.mem_map.mp hb
      exact ⟨d, Nat.digits_lt_base (by decide) (List.mem_reverse.mp hd), rfl⟩
  have hlength : 0 < (shortname n).length := by
    simp only [shortname, List.length_take, List.length_append, List.length_replicate]
    omega
  rw [List.getD_eq_getElem _ _ hlength]
  exact hdigits _ (List.getElem_mem hlength)

theorem shortname_head_mark (n : Nat) : (shortname n).getD 0 0 ≠ 0 ∧ (shortname n).getD 0 0 ≠ 0xe5 := by
  obtain ⟨d, hd, heq⟩ := shortname_head n
  have hall : ∀ d < 10, BitVec.ofNat 8 (48 + d) ≠ 0 ∧ BitVec.ofNat 8 (48 + d) ≠ 0xe5 := by decide
  rw [heq]
  exact hall d hd

/-! ## Records -/

namespace DirFile

theorem size_eq (dir : DirFile) : dir.size = dentSize * dir.records := by
  obtain ⟨c, hc⟩ := dir.sectors
  have hsize : dir.size = dentSize * (16 * c * dir.blocks) := by
    rw [size, hc, dentSize]
    ring
  rw [records, hsize, Nat.mul_div_cancel_left _ (by decide)]

/-- Byte `k` of record `i`. -/
def get (dir : DirFile) (i k : Nat) : Byte :=
  if i < dir.records then dir.data (dentSize * i + k) else 0

theorem get_inside (h : i < dir.records) : dir.get i k = dir.data (dentSize * i + k) := if_pos h

theorem get_outside (h : dir.records ≤ i) : dir.get i k = 0 := if_neg (Nat.not_lt.mpr h)

/-- The first record with the end mark, or the one behind the directory. -/
structure EndsAt (dir : DirFile) (e : Nat) : Prop where
  before : ∀ i < e, dir.get i 0 ≠ 0
  mark : dir.get e 0 = 0

theorem EndsAt.unique {e' : Nat} (h : dir.EndsAt e) (h' : dir.EndsAt e') : e = e' := by
  rcases Nat.lt_trichotomy e e' with hlt | heq | hlt
  · exact absurd h.mark (h'.before e hlt)
  · exact heq
  · exact absurd h'.mark (h.before e' hlt)

/-- Record `i` has been set. -/
structure Sets (dir : DirFile) (i : Nat) (buffer : Nat → Byte) (dir' : DirFile) : Prop where
  records : dir.records ≤ dir'.records
  inside : i < dir'.records
  get : ∀ j k, k < dentSize → dir'.get j k = if j = i then buffer k else dir.get j k

theorem records_le (h : dir.size ≤ dir'.size) : dir.records ≤ dir'.records := Nat.div_le_div_right h

theorem Sets.of_put {m : Mem} (hle : dir.size ≤ dir'.size)
    (hin : dentSize * i + dentSize ≤ dir'.size)
    (hdata : dir'.data = Bytes.put m (dentSize * i) dentSize buffer)
    (hm : ∀ j k, k < dentSize → j < dir'.records → m (dentSize * j + k) = dir.get j k) :
    Sets dir i buffer dir' := by
  have hi : i < dir'.records := by
    rw [size_eq, ← Nat.mul_succ] at hin
    exact Nat.le_of_mul_le_mul_left hin (by decide)
  refine ⟨records_le hle, hi, fun j k hk => ?_⟩
  by_cases hj : j < dir'.records
  · rw [get_inside hj, hdata]
    by_cases hji : j = i
    · rw [if_pos hji, hji, put_at _ _ _ hk]
    · rw [if_neg hji, ← hm j k hk hj]
      refine put_sameOff _ _ _ _ _ ?_
      unfold dentSize at hk ⊢
      omega
  · have hji : j ≠ i := fun heq => hj (heq ▸ hi)
    rw [if_neg hji, get_outside (Nat.not_lt.mp hj),
      get_outside ((records_le hle).trans (Nat.not_lt.mp hj))]

theorem le_mul_ceil {a b : Nat} (hb : 0 < b) : a ≤ b * ((a + b - 1) / b) := by
  have hmod := Nat.mod_lt (a + b - 1) hb
  have hdiv := Nat.div_add_mod (a + b - 1) b
  omega

theorem reswrite_sets (h : dir.reswrite grow (dentSize * i) dentSize buffer = some dir') :
    Sets dir i buffer dir' := by
  rw [reswrite] at h
  by_cases hgrow : dir.size < dentSize * i + dentSize
  · rw [if_pos hgrow] at h
    by_cases hok : grow ((dentSize * i + dentSize + dir.blksize - 1) / dir.blksize)
    · rw [if_pos hok] at h
      have hlong : dentSize * i + dentSize ≤ dir'.size := by
        rw [← Option.some.inj h]
        exact le_mul_ceil dir.blksize_pos
      refine .of_put (by omega) hlong (by rw [← Option.some.inj h]) fun j k hk hj => ?_
      have hsize : dir'.size = dir.blksize *
          ((dentSize * i + dentSize + dir.blksize - 1) / dir.blksize) := by
        rw [← Option.some.inj h]
        rfl
      have hold := size_eq dir
      have hnew := size_eq dir'
      rw [← hsize]
      by_cases hin : j < dir.records
      · rw [get_inside hin]
        refine fill_sameOff _ _ _ _ ?_
        unfold dentSize at hk hold ⊢
        omega
      · rw [get_outside (Nat.not_lt.mp hin)]
        refine fill_zero ?_ ?_
        · unfold dentSize at hold ⊢
          omega
        · unfold dentSize at hk hold hnew ⊢
          omega
    · rw [if_neg hok] at h
      cases h
  · rw [if_neg hgrow] at h
    have hsize : dir'.size = dir.size := by
      rw [← Option.some.inj h]
      rfl
    refine .of_put (by omega) (by omega) (by rw [← Option.some.inj h]) fun j k hk hj => ?_
    rw [records, hsize] at hj
    rw [get_inside hj]

end DirFile

open DirFile

/-! ## The search -/

/-- The records from `i - n` on, up to record `i`, are deleted. -/
def DirFile.Deleted (dir : DirFile) (n i : Nat) : Prop := ∀ j, i ≤ j + n → j < i → dir.get j 0 = 0xe5

/-- Where the search ends. -/
inductive Searched (dir : DirFile) (needed : Nat) : Search → Prop where
  | mark {e found : Nat} : dir.EndsAt e → e < dir.records → found < needed →
      dir.Deleted found e → Searched dir needed ⟨dentSize * e, found, true⟩
  | run {p : Nat} : p < dir.records → (∀ i ≤ p, dir.get i 0 ≠ 0) → needed ≤ p + 1 →
      dir.Deleted needed (p + 1) → Searched dir needed ⟨dentSize * p, needed, false⟩
  | all {found : Nat} : (∀ i < dir.records, dir.get i 0 ≠ 0) → found < needed →
      (∀ i < dir.records, ¬ (needed ≤ i + 1 ∧ dir.Deleted needed (i + 1))) →
      Searched dir needed ⟨dentSize * dir.records, found, false⟩

theorem searchLoop_spec (hleft : i + left = dir.records) (hfound : found < needed) (hle : found ≤ i)
    (hmark : ∀ j < i, dir.get j 0 ≠ 0) (hdel : dir.Deleted found i)
    (hmax : ∀ j, j + 1 + found = i → dir.get j 0 ≠ 0xe5)
    (hnone : ∀ j < i, ¬ (needed ≤ j + 1 ∧ dir.Deleted needed (j + 1))) :
    Searched dir needed (searchLoop dir needed left (dentSize * i) found) := by
  induction left generalizing i found with
  | zero =>
    obtain rfl : i = dir.records := hleft
    exact .all hmark hfound hnone
  | succ left ih =>
    have hi : i < dir.records := by omega
    have hget : Dent.name dir.data (dentSize * i) 0 = dir.get i 0 := (get_inside hi).symm
    rw [searchLoop, hget, ← Nat.mul_succ]
    split_ifs with h0 he5 hlast
    · exact .mark ⟨hmark, h0⟩ hi hfound hdel
    · rw [hlast]
      refine .run hi (fun j hj => ?_) (by omega) fun j hj hji => ?_
      · rcases Nat.lt_or_eq_of_le hj with hlt | rfl
        · exact hmark j hlt
        · exact h0
      · rcases Nat.lt_or_eq_of_le (Nat.le_of_lt_succ hji) with hlt | rfl
        · exact hdel j (by omega) hlt
        · exact he5
    · refine ih (by omega) (by omega) (by omega) (fun j hj => ?_) (fun j hj hji => ?_)
        (fun j hj => hmax j (by omega)) fun j hj hrun => ?_
      · rcases Nat.lt_or_eq_of_le (Nat.le_of_lt_succ hj) with hlt | rfl
        · exact hmark j hlt
        · exact h0
      · rcases Nat.lt_or_eq_of_le (Nat.le_of_lt_succ hji) with hlt | rfl
        · exact hdel j (by omega) hlt
        · exact he5
      · rcases Nat.lt_or_eq_of_le (Nat.le_of_lt_succ hj) with hlt | rfl
        · exact hnone j hlt hrun
        · exact hmax (j - (found + 1) + 0) (by omega) (hrun.2 _ (by omega) (by omega))
    · refine ih (by omega) (by omega) (by omega) (fun j hj => ?_) (fun j hj hji => by omega)
        (fun j hj => ?_) fun j hj hrun => ?_
      · rcases Nat.lt_or_eq_of_le (Nat.le_of_lt_succ hj) with hlt | rfl
        · exact hmark j hlt
        · exact h0
      · obtain rfl : j = i := by omega
        exact he5
      · rcases Nat.lt_or_eq_of_le (Nat.le_of_lt_succ hj) with hlt | rfl
        · exact hnone j hlt hrun
        · exact he5 (hrun.2 j (by omega) (by omega))

theorem searched (hneeded : 0 < needed) :
    Searched dir needed (searchLoop dir needed dir.records 0 0) := by
  rw [show (0 : Nat) = dentSize * 0 from rfl]
  exact searchLoop_spec (Nat.zero_add dir.records) hneeded (le_refl 0)
    (fun j hj => absurd hj (Nat.not_lt_zero j)) (fun j _ hj => absurd hj (Nat.not_lt_zero j))
    (fun j hj => by omega) fun j hj => absurd hj (Nat.not_lt_zero j)

/-! ## The records -/

/-- The records of the name lie in front of record `p`. -/
theorem lfnLoop_spec (h : lfnLoop grow name needed checksum left i (dentSize * p) dir = some dir') :
    left ≤ p ∧ dir.records ≤ dir'.records ∧ ∀ j k, k < dentSize → dir'.get j k =
      if p ≤ j + left ∧ j < p then lfnEntry name needed checksum (i + (p - 1 - j)) k
      else dir.get j k := by
  induction left generalizing i p dir with
  | zero =>
    cases h
    refine ⟨Nat.zero_le p, Nat.le_refl _, fun j k _ => ?_⟩
    rw [if_neg (by omega)]
  | succ left ih =>
    rw [lfnLoop] at h
    by_cases hp : dentSize * p < dentSize
    · rw [if_pos hp] at h
      cases h
    · obtain ⟨p, rfl⟩ : ∃ q, p = q + 1 := ⟨p - 1, by
        rcases p with - | p
        · exact absurd (by decide : dentSize * 0 < dentSize) hp
        · rfl⟩
      rw [if_neg hp, Nat.mul_succ, Nat.add_sub_cancel] at h
      cases hwrite : dir.reswrite grow (dentSize * p) dentSize (lfnEntry name needed checksum i) with
      | none =>
        rw [hwrite] at h
        cases h
      | some dir₁ =>
        rw [hwrite, Option.bind_eq_bind, Option.bind_some] at h
        have hset := reswrite_sets hwrite
        obtain ⟨hle, hrecords, hget⟩ := ih h
        refine ⟨by omega, hset.records.trans hrecords, fun j k hk => ?_⟩
        rw [hget j k hk, hset.get j k hk]
        by_cases hj : j = p
        · rw [if_neg (by omega), if_pos hj, if_pos (by omega), hj]
          congr 1
          omega
        · rw [if_neg hj]
          by_cases hin : p ≤ j + left ∧ j < p
          · rw [if_pos hin, if_pos (by omega)]
            congr 1
            omega
          · rw [if_neg hin, if_neg (by omega)]

/-- The entry as it is written at record `p`. -/
def entryAt (entry : Mem) (p : Nat) : Mem := Bytes.put entry 0 11 fun k => (shortname p).getD k 0

/-- What `insertdent` leaves when it returns record `p`. `moved` is the record that is written behind
it, if the end mark moves. -/
structure Inserted (dir : DirFile) (entry : Mem) (name : List Byte) (moved : Option Mem) (p : Nat)
    (dir' : DirFile) : Prop where
  room : entriesneeded name ≤ p + 1
  inside : p < dir'.records
  records : dir.records ≤ dir'.records
  get : ∀ j k, k < dentSize → dir'.get j k =
    if j = p then entryAt entry p k
    else if p < j + entriesneeded name ∧ j < p then
      lfnEntry name (entriesneeded name) (lfnchecksum (entryAt entry p)) (p - j) k
    else if j = p + 1 then (moved.map fun m => m k).getD (dir.get j k) else dir.get j k

theorem findplace_spec {place : DirFile × Nat} (hneeded : 0 < needed)
    (h : findplace dir grow needed = some place) :
    (∃ p n, place = (dir, dentSize * p) ∧ Searched dir needed ⟨dentSize * p, n, false⟩) ∨
    ∃ e n, place.2 = dentSize * (e + (needed - n - 1)) ∧ n < needed ∧ dir.EndsAt e ∧
      e < dir.records ∧ dir.Deleted n e ∧ Sets dir (e + (needed - n - 1) + 1) (dir.get e) place.1 := by
  have hs := @searched dir _ hneeded
  rw [findplace] at h
  generalize searchLoop dir needed dir.records 0 0 = s at hs h
  cases hs with
  | @mark e found hend he hfound hdel =>
    right
    have hoff : dentSize * e + (needed - found - 1) * dentSize =
        dentSize * (e + (needed - found - 1)) := by
      rw [Nat.mul_add, Nat.mul_comm _ dentSize]
    simp only [if_true, hoff, ← Nat.mul_succ] at h
    cases hwrite : dir.reswrite grow (dentSize * (e + (needed - found - 1)).succ) dentSize
        fun k => dir.data (dentSize * e + k) with
    | none =>
      rw [hwrite] at h
      cases h
    | some dir₁ =>
      rw [hwrite] at h
      cases h
      have hset := reswrite_sets hwrite
      refine ⟨e, found, rfl, hfound, hend, he, hdel, hset.records, hset.inside, fun j k hk => ?_⟩
      rw [hset.get j k hk, get_inside he]
  | run hp hmarks hroom hdel =>
    left
    exact ⟨_, _, (Option.some.inj h).symm, .run hp hmarks hroom hdel⟩
  | all hmarks hfound hnone =>
    left
    exact ⟨_, _, (Option.some.inj h).symm, .all hmarks hfound hnone⟩

theorem write_records (hentry : dir.reswrite grow (dentSize * p) dentSize (entryAt entry p) = some dir₁)
    (hloop : lfnLoop grow name (entriesneeded name) (lfnchecksum (entryAt entry p))
      (entriesneeded name - 1) 1 (dentSize * p) dir₁ = some dir') :
    Inserted dir entry name none p dir' := by
  have hset := reswrite_sets hentry
  obtain ⟨hle, hrecords, hget⟩ := lfnLoop_spec hloop
  have hneeded : 0 < entriesneeded name := by
    unfold entriesneeded
    omega
  refine ⟨by omega, hset.inside.trans_le hrecords, hset.records.trans hrecords, fun j k hk => ?_⟩
  rw [hget j k hk, hset.get j k hk]
  by_cases hj : j = p
  · rw [if_neg (by omega), if_pos hj, if_pos hj]
  · rw [if_neg hj, if_neg hj]
    by_cases hin : p < j + entriesneeded name ∧ j < p
    · rw [if_pos hin, if_pos (by omega)]
      congr 1
      omega
    · rw [if_neg hin, if_neg (by omega)]
      simp

theorem Inserted.moved {m : Mem} (hset : Sets dir (p + 1) m dir₁)
    (h : Inserted dir₁ entry name none p dir') : Inserted dir entry name (some m) p dir' := by
  refine ⟨h.room, h.inside, hset.records.trans h.records, fun j k hk => ?_⟩
  rw [h.get j k hk, hset.get j k hk]
  by_cases hj : j = p + 1
  · rw [if_pos hj, if_neg (by omega), if_neg (by omega)]
    simp [hj]
  · simp only [if_neg hj]

/-- **What `insertdent` does.** -/
theorem insertdent_spec (h : insertdent dir grow entry name = some (dir', off)) :
    ∃ p moved, off = dentSize * p ∧ Inserted dir entry name moved p dir' ∧
      ((moved = none ∧ ∃ n, Searched dir (entriesneeded name) ⟨dentSize * p, n, false⟩) ∨
        ∃ e n, moved = some (dir.get e) ∧ p = e + (entriesneeded name - n - 1) ∧
          n < entriesneeded name ∧ dir.EndsAt e ∧ e < dir.records ∧ dir.Deleted n e) := by
  have hneeded : 0 < entriesneeded name := by
    unfold entriesneeded
    omega
  simp only [insertdent, Option.bind_eq_bind, Option.bind_eq_some_iff, Option.some_inj,
    Prod.mk.injEq] at h
  obtain ⟨place, hplace, dir₂, hentry, dir₃, hloop, rfl, rfl⟩ := h
  rcases findplace_spec hneeded hplace with ⟨p, n, rfl, hs⟩ | ⟨e, n, hoff, hn, hend, he, hdel, hset⟩
  · rw [Nat.mul_div_cancel_left p (by decide)] at hentry hloop
    exact ⟨p, none, rfl, write_records hentry hloop, .inl ⟨rfl, n, hs⟩⟩
  · rw [hoff, Nat.mul_div_cancel_left _ (by decide)] at hentry hloop
    exact ⟨_, _, hoff, (write_records hentry hloop).moved hset,
      .inr ⟨e, n, rfl, rfl, hn, hend, he, hdel⟩⟩

/-! ## Used entries -/

/-- There is an end mark, or there are enough deleted records in a row, or all but one of them at the
end of the directory. -/
def DirFile.Roomy (dir : DirFile) (needed : Nat) : Prop :=
  (∃ i < dir.records, dir.get i 0 = 0) ∨
    (∃ i < dir.records, needed ≤ i + 1 ∧ dir.Deleted needed (i + 1)) ∨
    (needed ≤ dir.records + 1 ∧ dir.Deleted (needed - 1) dir.records)

/-- The records `p + 1 - needed` to `p` have been put into `dir` as an entry. -/
structure Respects (dir : DirFile) (needed p : Nat) (dir' : DirFile) : Prop where
  /-- They have been deleted, or they are behind the end. -/
  places : ∀ e, dir.EndsAt e → ∀ i, p < i + needed → i ≤ p → e ≤ i ∨ dir.get i 0 = 0xe5
  /-- A used entry is as it was. -/
  used : ∀ e, dir.EndsAt e → ∀ i < e, dir.get i 0 ≠ 0xe5 →
    ∀ k < dentSize, dir'.get i k = dir.get i k
  /-- The new end is behind the old one and behind the entry. -/
  ends : ∀ e, dir.EndsAt e → dir'.EndsAt (max e (p + 1))

theorem Inserted.mark {moved : Option Mem} (h : Inserted dir entry name moved p dir')
    (hname : name.length ≤ 255) (hj : p < j + entriesneeded name) (hjp : j ≤ p) : dir'.get j 0 ≠ 0 := by
  rw [h.get j 0 (by decide)]
  rcases Nat.lt_or_eq_of_le hjp with hlt | rfl
  · rw [if_neg (by omega), if_pos ⟨hj, hlt⟩]
    have horder := @lfnEntry_order name (lfnchecksum (entryAt entry p)) (p - j) (entriesneeded name)
    rw [Lfn.order] at horder
    rw [horder]
    refine (order_bits (p - j) ?_ _ ?_).2.2 (by omega)
    · unfold entriesneeded at hj
      omega
    · split
      · exact .inr rfl
      · exact .inl rfl
  · rw [if_pos rfl]
    exact (shortname_head_mark j).1

theorem Inserted.outside {moved : Option Mem} (h : Inserted dir entry name moved p dir')
    (hj : ¬ (p < j + entriesneeded name ∧ j ≤ p)) (hmoved : moved = none ∨ j ≠ p + 1)
    (hk : k < dentSize) : dir'.get j k = dir.get j k := by
  have hneeded : 0 < entriesneeded name := by
    unfold entriesneeded
    omega
  rw [h.get j k hk, if_neg (by omega), if_neg (by omega)]
  rcases hmoved with rfl | hne
  · simp
  · rw [if_neg hne]

theorem Inserted.respects (h : Inserted dir entry name none p dir') (hname : name.length ≤ 255)
    (hdel : ∀ j, p < j + entriesneeded name → j < p → dir.get j 0 = 0xe5)
    (hlast : p = dir.records ∨ dir.get p 0 = 0xe5) (hmark : ∀ i < p, dir.get i 0 ≠ 0) :
    Respects dir (entriesneeded name) p dir' := by
  have hp : dir.EndsAt p ∨ dir.get p 0 = 0xe5 := hlast.imp_left fun heq =>
    ⟨hmark, get_outside (le_of_eq heq.symm)⟩
  have hplaces : ∀ e, dir.EndsAt e → ∀ i, p < i + entriesneeded name → i ≤ p →
      e ≤ i ∨ dir.get i 0 = 0xe5 := by
    intro e he i hi hip
    rcases Nat.lt_or_eq_of_le hip with hlt | rfl
    · exact .inr (hdel i hi hlt)
    · exact hp.imp_left fun hend => le_of_eq (he.unique hend)
  have hpe : ∀ e, dir.EndsAt e → p ≤ e := by
    intro e he
    by_contra hlt
    exact hmark e (by omega) he.mark
  refine ⟨hplaces, fun e he i hi hused k hk => ?_, fun e he => ⟨fun j hj => ?_, ?_⟩⟩
  · refine h.outside (fun hin => ?_) (.inl rfl) hk
    rcases hplaces e he i hin.1 hin.2 with hle | heq
    · omega
    · exact hused heq
  · by_cases hin : p < j + entriesneeded name ∧ j ≤ p
    · exact h.mark hname hin.1 hin.2
    · rw [h.outside hin (.inl rfl) (by decide)]
      have hneeded : 0 < entriesneeded name := by
        unfold entriesneeded
        omega
      refine he.before j ?_
      have := hpe e he
      omega
  · rw [h.outside (by omega) (.inl rfl) (by decide)]
    rcases hp with hend | heq
    · rw [he.unique hend, Nat.max_eq_right (Nat.le_succ p)]
      rcases hlast with hrec | heq
      · exact get_outside (by omega)
      · rw [hend.mark] at heq
        exact absurd heq (by decide)
    · have hne : e ≠ p := fun hep => by
        rw [← hep, he.mark] at heq
        exact absurd heq (by decide)
      have hle := hpe e he
      rw [Nat.max_eq_left (by omega)]
      exact he.mark

theorem Inserted.respects_mark {n : Nat} (h : Inserted dir entry name (some (dir.get e)) p dir')
    (hname : name.length ≤ 255) (hp : p = e + (entriesneeded name - n - 1))
    (hn : n < entriesneeded name) (hend : dir.EndsAt e) (hdel : dir.Deleted n e) :
    Respects dir (entriesneeded name) p dir' := by
  have hplaces : ∀ i, p < i + entriesneeded name → i ≤ p → e ≤ i ∨ dir.get i 0 = 0xe5 := by
    intro i hi hip
    by_cases hei : e ≤ i
    · exact .inl hei
    · exact .inr (hdel i (by omega) (by omega))
  refine ⟨fun e' he' => by rw [he'.unique hend]; exact hplaces, fun e' he' i hi hused k hk => ?_,
    fun e' he' => ?_⟩
  · rw [he'.unique hend] at hi
    refine h.outside (fun hin => ?_) (.inr (by omega)) hk
    rcases hplaces i hin.1 hin.2 with hle | heq
    · omega
    · exact hused heq
  · rw [he'.unique hend, Nat.max_eq_right (by omega)]
    refine ⟨fun j hj => ?_, ?_⟩
    · by_cases hin : p < j + entriesneeded name ∧ j ≤ p
      · exact h.mark hname hin.1 hin.2
      · rw [h.outside hin (.inr (by omega)) (by decide)]
        exact hend.before j (by omega)
    · rw [h.get (p + 1) 0 (by decide), if_neg (by omega), if_neg (by omega), if_pos rfl]
      exact hend.mark

/-! ## On the device -/

/-- A record of a directory lies in one cluster, so that it is transferred as it should be. -/
theorem record_served {fs : Volume} {l : List Nat} (hsectors : 512 ∣ fs.clustersize)
    (hpos : 0 < fs.clustersize) (hin : dentSize * i + dentSize ≤ l.length * fs.clustersize) :
    fs.Served l (dentSize * i) dentSize := by
  obtain ⟨c, hc⟩ := hsectors
  have hdvd : dentSize * i % fs.clustersize % dentSize = 0 := by
    rw [Nat.mod_mod_of_dvd _ ⟨16 * c, by rw [hc, dentSize]; ring⟩, Nat.mul_mod_right]
  have hmod := Nat.mod_lt (dentSize * i) hpos
  have hlong : 512 ≤ fs.clustersize := Nat.le_of_dvd hpos ⟨c, hc⟩
  unfold dentSize at *
  refine ⟨by omega, fun _ _ hover => by omega, fun t hle hend => ?_⟩
  rw [Nat.mul_succ] at hend
  omega

/-- A write of a record inside of the directory does on the device what it does here. -/
theorem reswrite_refines {fs : Volume} {s : Transfer} {l : List Nat} {start e : Nat}
    (h : Walk fs start l e s) (hblksize : dir.blksize = fs.clustersize)
    (hblocks : dir.blocks = l.length)
    (hshows : ∀ p < dir.size, dir.data p = s.device (fs.byteplace l p))
    (hin : dentSize * i + dentSize ≤ dir.size) :
    ∃ s' dir', fs.rwbytes s start (dentSize * i) dentSize true = some s' ∧
      dir.reswrite grow (dentSize * i) dentSize s.buffer = some dir' ∧
      ∀ p < dir.size, dir'.data p = s'.device (fs.byteplace l p) := by
  have hsize : dir.size = l.length * fs.clustersize := by
    rw [DirFile.size, hblksize, hblocks, Nat.mul_comm]
  have hlong : dentSize * i + dentSize ≤ l.length * fs.clustersize := by rwa [← hsize]
  obtain ⟨s', hrun, htransfers⟩ := @rwbytes_right fs _ l true _ _ _ _ h hlong
    (record_served (hblksize ▸ dir.sectors) h.sound.clustersize hlong)
  rw [Volume.Transfers, if_pos rfl] at htransfers
  refine ⟨s', _, hrun, if_neg (Nat.not_lt.mpr hin), fun p hp => ?_⟩
  by_cases hrange : dentSize * i ≤ p ∧ p < dentSize * i + dentSize
  · obtain ⟨k, rfl⟩ := Nat.exists_eq_add_of_le hrange.1
    rw [htransfers.1.moved k (by omega)]
    exact put_at _ _ _ (by omega)
  · rw [htransfers.1.others _ fun k hk heq => hrange ?_]
    · rw [← hshows p hp]
      exact put_sameOff _ _ _ _ _ hrange
    · have := byteplace_inj h.sound h.nodup (fun c hc => (h.inside c hc).1) (hsize ▸ hp) (by omega) heq
      omega

/-! ## The result -/

/-- A directory of a cluster. -/
def smallDir (data : Mem) : DirFile := ⟨512, 1, data, by decide, by decide⟩

theorem reswrite_refines_full : ∃ s' dir',
    fullVolume.rwbytes ⟨fullDevice, fun _ => 0x61⟩ 2 (dentSize * 15) dentSize true = some s' ∧
      (smallDir fun p => fullDevice (fullVolume.byteplace [2] p)).reswrite (fun _ => true)
        (dentSize * 15) dentSize (fun _ => 0x61) = some dir' ∧
      ∀ p < 512, dir'.data p = s'.device (fullVolume.byteplace [2] p) := by
  have hwalk : Walk fullVolume 2 [2] finalCluster ⟨fullDevice, fun _ => 0x61⟩ :=
    ⟨by constructor <;> decide, by decide, by decide, by decide⟩
  exact reswrite_refines hwalk rfl rfl (fun _ _ => rfl) (by decide)

/-- In a directory whose sixteen records are all used, the last one becomes the record of a name. -/
theorem insertdent_overwrites : ∃ dir', insertdent (smallDir fun _ => 0x61) (fun _ => true)
    (fun _ => 0) [0x62] = some (dir', 512) ∧
    ¬ Respects (smallDir fun _ => 0x61) 2 16 dir' := by
  have hrun : (insertdent (smallDir fun _ => 0x61) (fun _ => true) (fun _ => 0) [0x62]).map
      (fun r => (r.1.get 15 0, r.2)) = some (0x41, 512) := by decide +kernel
  obtain ⟨⟨dir', off⟩, h, heq⟩ := Option.map_eq_some_iff.mp hrun
  obtain ⟨hget, rfl⟩ := Prod.mk.inj heq
  refine ⟨dir', h, fun hres => ?_⟩
  have hend : (smallDir fun _ => 0x61).EndsAt 16 := ⟨by decide, by decide⟩
  have hsame := hres.used 16 hend 15 (by decide) (by decide) 0 (by decide)
  rw [hsame] at hget
  exact absurd hget (by decide)

/-- **When a successful `insertdent` leaves the used entries alone.** -/
theorem insertdent_respects_iff (hname : name.length ≤ 255)
    (h : insertdent dir grow entry name = some (dir', off)) :
    Respects dir (entriesneeded name) (off / dentSize) dir' ↔ dir.Roomy (entriesneeded name) := by
  obtain ⟨p, moved, rfl, hins, hcases⟩ := insertdent_spec h
  rw [Nat.mul_div_cancel_left p (by decide)]
  have hneeded : 2 ≤ entriesneeded name := Nat.le_add_right 2 _
  rcases hcases with ⟨rfl, n, hs⟩ | ⟨e, n, rfl, hp, hn, hend, he, hdel⟩
  · generalize hoff : dentSize * p = off at hs
    generalize hended : false = ended at hs
    cases hs with
    | mark => cases hended
    | run hpR hmarks hroom hdel =>
      obtain rfl := Nat.eq_of_mul_eq_mul_left (by decide) hoff
      refine ⟨fun _ => .inr (.inl ⟨p, hpR, hroom, hdel⟩), fun _ => ?_⟩
      refine hins.respects hname (fun j hj hjp => hdel j (by omega) (by omega))
        (.inr (hdel p (by omega) (Nat.lt_succ_self p))) fun i hi => hmarks i (by omega)
    | all hmarks hfound hnone =>
      obtain rfl := Nat.eq_of_mul_eq_mul_left (by decide) hoff
      constructor
      · intro hres
        refine .inr (.inr ⟨hins.room, fun j hj hjR => ?_⟩)
        have hend : dir.EndsAt dir.records := ⟨hmarks, get_outside (Nat.le_refl _)⟩
        rcases hres.places _ hend j (by omega) (by omega) with hle | heq
        · omega
        · exact heq
      · rintro (⟨i, hi, h0⟩ | ⟨i, hi, hrun⟩ | ⟨hroom, hdel⟩)
        · exact absurd h0 (hmarks i hi)
        · exact absurd hrun (hnone i hi)
        · exact hins.respects hname (fun j hj hjp => hdel j (by omega) hjp) (.inl rfl) hmarks
  · exact ⟨fun _ => .inl ⟨e, he, hend.mark⟩,
      fun _ => hins.respects_mark hname hp hn hend hdel⟩

/-- The same name in a directory with room for it. -/
theorem insertdent_respects_iff_small : ∃ dir', insertdent (smallDir fun _ => 0) (fun _ => true)
    (fun _ => 0) [0x62] = some (dir', 32) ∧
    (Respects (smallDir fun _ => 0) 2 1 dir' ↔ (smallDir fun _ => 0).Roomy 2) := by
  have hrun : (insertdent (smallDir fun _ => 0) (fun _ => true) (fun _ => 0) [0x62]).map Prod.snd =
      some 32 := by decide +kernel
  obtain ⟨⟨dir', off⟩, h, rfl⟩ := Option.map_eq_some_iff.mp hrun
  exact ⟨dir', h, insertdent_respects_iff (by decide) h⟩

end Lyre.Fat32

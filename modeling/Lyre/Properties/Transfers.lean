import Mathlib.Algebra.Ring.Int.Defs
import Lyre.Dev.Fbdev
import Lyre.Properties.FatBytes
import Lyre.Properties.Tmpfs

/-!
# How much a read or a write transfers

`tmpfs_resource_read`, its copy in devtmpfs, `fbdev_read` and `fbdev_write` cut a request off at the
end of the object, by the number of bytes that the end of the request lies behind it. This is right
for a request that begins inside the object and whose end does not wrap, and for no other one: behind
the end, the number that is subtracted is larger than the count.
-/

namespace Lyre.Tmpfs

open Infra.Ring

variable {this : Resource} {size : Int} {offset count : Nat}

/-- The bytes of a request that lie inside an object. -/
def wanted (size : Int) (offset count : Nat) : Nat := (max 0 (min (count : Int) (size - offset))).toNat

theorem wanted_of_le (h : offset ≤ size) : (wanted size offset count : Int) = min (count : Int) (size - offset) := by
  unfold wanted
  omega

/-- The bytes that are copied are the ones wanted, and their number is returned. -/
def Exact (data : Nat → Byte) (size : Int) (offset count : Nat) (copied : List Byte) (ret : Int) : Prop :=
  copied = slice data offset (wanted size offset count) ∧ ret = wanted size offset count

theorem clamp_toNat (size : Int) (offset count : Nat) :
    ((BitVec.ofNat 64 count - (BitVec.ofNat 64 (offset + count) - BitVec.ofInt 64 size)).toNat : Int)
      = (size - offset) % 2 ^ 64 := by
  simp only [BitVec.toNat_sub, BitVec.toNat_ofNat, BitVec.toNat_ofInt]
  omega

/-- What is left of a request that begins inside the object, and one that does not. -/
theorem clamp_cases (hlo : -2 ^ 63 ≤ size) (hsize : size < 2 ^ 63) (hoff : offset < 2 ^ 63) :
    offset ≤ size ∧ (size - offset) % 2 ^ 64 = size - offset ∨
    size < offset ∧ (size - offset) % 2 ^ 64 = size - offset + 2 ^ 64 := by
  omega

theorem offT_of_ge {n : Nat} (hlo : 2 ^ 63 ≤ n) (hhi : n < 2 ^ 64 + 2 ^ 63) :
    offT n = (n : Int) - 2 ^ 64 := by
  unfold offT
  rw [BitVec.toInt_eq_toNat_cond, BitVec.toNat_ofNat]
  split <;> omega

theorem offT_inj {n m : Nat} (hn : n < 2 ^ 64) (hm : m < 2 ^ 63) (h : offT n = m) : n = m := by
  rcases Nat.lt_or_ge n (2 ^ 63) with hlt | hge
  · rw [offT_of_lt hlt] at h
    exact_mod_cast h
  · rw [offT_of_ge hge (by omega)] at h
    omega

theorem wanted_of_lt (h : size < offset) : wanted size offset count = 0 := by
  unfold wanted
  omega

theorem exact_iff (data : Nat → Byte) {n : Nat} (hwanted : wanted size offset count < 2 ^ 63) :
    Exact data size offset count (slice data offset n) (offT n) ↔ n = wanted size offset count := by
  constructor
  · intro h
    have hlen := congrArg List.length h.1
    rw [length_slice, length_slice] at hlen
    exact hlen
  · intro h
    refine ⟨by rw [h], ?_⟩
    rw [h]
    exact offT_of_lt hwanted

theorem wanted_lt (hsize : size < 2 ^ 63) : wanted size offset count < 2 ^ 63 := by
  unfold wanted
  omega

/-- A count that is clamped when the end of the request, as computed, is not before the end of the
object; `bound` is where the end wraps around. -/
theorem clamped_iff (last : Int) {clamped bound n : Nat} (hlo : -2 ^ 63 ≤ size)
    (hsize : size < 2 ^ 63) (hoff : offset < 2 ^ 63) (hcount : count < 2 ^ 64)
    (hclamp : (clamped : Int) = (size - offset) % 2 ^ 64)
    (hn : n = clamped ∧ size ≤ last ∨ n = count ∧ last ≤ size)
    (hlast : last = ((offset + count : Nat) : Int) ∧ offset + count < bound ∨
      last = ((offset + count : Nat) : Int) - 2 ^ 64 ∧ bound ≤ offset + count)
    (hbound : 2 ^ 63 ≤ bound) :
    n = wanted size offset count ↔ offset ≤ size ∧ offset + count < bound := by
  rcases clamp_cases hlo hsize hoff with ⟨hin, hmod⟩ | ⟨hout, hmod⟩
  · have hwanted : (wanted size offset count : Int) = min (count : Int) (size - offset) :=
      wanted_of_le hin
    rw [hmod] at hclamp
    rcases hlast with ⟨rfl, hlt⟩ | ⟨rfl, hge⟩
    · omega
    · omega
  · rw [wanted_of_lt hout]
    rw [hmod] at hclamp
    rcases hlast with ⟨rfl, hlt⟩ | ⟨rfl, hge⟩
    · omega
    · omega

/-- The clamp of `tmpfs_resource_read`. -/
theorem actualCount_iff (hlo : -2 ^ 63 ≤ size) (hsize : size < 2 ^ 63) (hoff : offset < 2 ^ 63)
    (hcount : count < 2 ^ 64) :
    (if size ≤ offT (offset + count) then
      (BitVec.ofNat 64 count - (BitVec.ofNat 64 (offset + count) - BitVec.ofInt 64 size)).toNat
      else count) = wanted size offset count ↔ offset ≤ size ∧ offset + count < 2 ^ 63 := by
  refine clamped_iff (offT (offset + count)) hlo hsize hoff hcount
    (clamp_toNat size offset count) ?_ ?_ (Nat.le_refl _)
  · split
    · next hle => exact .inl ⟨rfl, hle⟩
    · next hlt => exact .inr ⟨rfl, by omega⟩
  · rcases Nat.lt_or_ge (offset + count) (2 ^ 63) with hlt | hge
    · exact .inl ⟨offT_of_lt hlt, hlt⟩
    · exact .inr ⟨offT_of_ge hge (by omega), hge⟩

theorem tmpfsResourceRead_exact_iff (this : Resource) (hlo : -2 ^ 63 ≤ this.stSize)
    (hsize : this.stSize < 2 ^ 63) (hoff : offset < 2 ^ 63) (hcount : count < 2 ^ 64) :
    Exact this.data this.stSize offset count (tmpfsResourceRead this offset count)
      (offT (tmpfsResourceRead this offset count).length) ↔
      offset ≤ this.stSize ∧ offset + count < 2 ^ 63 := by
  rw [← actualCount_iff hlo hsize hoff hcount, ← exact_iff this.data (wanted_lt hsize)]
  unfold tmpfsResourceRead
  rw [length_slice]

end Lyre.Tmpfs

namespace Lyre.Fbdev

open Infra.Ring Tmpfs

variable {this : FramebufferDevice} {offset count : Nat}

/-! ## The framebuffer -/

/-- The clamp of `fbdev_read` and `fbdev_write`. -/
theorem actualCount_iff (hoff : offset < 2 ^ 63) (hcount : count < 2 ^ 64) :
    actualCount this offset count = wanted this.smemLen.toNat offset count ↔
      offset ≤ this.smemLen.toNat ∧ offset + count < 2 ^ 64 := by
  have hlen := this.smemLen.isLt
  have hclamp := clamp_toNat this.smemLen.toNat offset count
  rw [BitVec.ofInt_natCast] at hclamp
  have h : actualCount this offset count = wanted this.smemLen.toNat offset count ↔
      (offset : Int) ≤ this.smemLen.toNat ∧ offset + count < 2 ^ 64 := by
    refine clamped_iff (u64 (offset + count)) (by omega) (by omega) hoff hcount hclamp ?_ ?_
      (by decide)
    · unfold actualCount
      split
      · next hlt => exact .inl ⟨rfl, by omega⟩
      · next hle => exact .inr ⟨rfl, by omega⟩
    · unfold u64
      omega
  rw [h, Int.ofNat_le]

theorem wanted_zero (size : Int) (offset : Nat) : wanted size offset 0 = 0 := by
  unfold wanted
  omega

theorem fbdevRead_exact_iff (this : FramebufferDevice) (hoff : offset < 2 ^ 63)
    (hcount : count < 2 ^ 64) :
    Exact this.address this.smemLen.toNat offset count (fbdevRead this offset count).1
      (fbdevRead this offset count).2 ↔
      count = 0 ∨ offset ≤ this.smemLen.toNat ∧ offset + count < 2 ^ 64 := by
  have hlen := this.smemLen.isLt
  unfold fbdevRead
  split
  · next hzero =>
    subst hzero
    simp [Exact, wanted_zero, slice]
  · next hpos =>
    rw [exact_iff this.address (wanted_lt (by omega)), actualCount_iff hoff hcount]
    simp [hpos]

/-- The bytes that are wanted are stored, and their number is returned. -/
def Stored (this : FramebufferDevice) (buf : Nat → Byte) (offset count : Nat)
    (result : FramebufferDevice × Int) : Prop :=
  result.1 = { this with
    address := blit this.address offset (slice buf 0 (wanted this.smemLen.toNat offset count)) } ∧
  result.2 = wanted this.smemLen.toNat offset count

theorem actualCount_lt (this : FramebufferDevice) (hcount : count < 2 ^ 64) :
    actualCount this offset count < 2 ^ 64 := by
  unfold actualCount
  split
  · exact BitVec.isLt _
  · exact hcount

theorem fbdevWrite_stored_iff (this : FramebufferDevice) (buf : Nat → Byte) (hoff : offset < 2 ^ 63)
    (hcount : count < 2 ^ 64) :
    Stored this buf offset count (fbdevWrite this buf offset count) ↔
      count = 0 ∨ offset ≤ this.smemLen.toNat ∧ offset + count < 2 ^ 64 := by
  have hlen := this.smemLen.isLt
  unfold fbdevWrite
  split
  · next hzero =>
    subst hzero
    have hnone : blit this.address offset [] = this.address :=
      funext fun k => blit_apply_of_not (by simp)
    simp [Stored, wanted_zero, slice, hnone]
  · next hpos =>
    have hwanted : wanted this.smemLen.toNat offset count < 2 ^ 63 := wanted_lt (by omega)
    have hiff : Stored this buf offset count
        ({ this with
          address := blit this.address offset (slice buf 0 (actualCount this offset count)) },
          offT (actualCount this offset count)) ↔
        actualCount this offset count = wanted this.smemLen.toNat offset count := by
      constructor
      · intro h
        exact offT_inj (actualCount_lt this hcount) hwanted h.2
      · intro h
        unfold Stored
        rw [h]
        exact ⟨rfl, offT_of_lt hwanted⟩
    refine hiff.trans ?_
    rw [actualCount_iff hoff hcount]
    simp [hpos]

end Lyre.Fbdev

namespace Lyre.Tmpfs

open Infra.Ring Fbdev

/-- **What a request transfers** is what of it lies inside the object, in each of the four functions,
if it begins inside the object (or at its end) and its end does not wrap, and else never. -/
theorem transfers_exact_iff (this : Resource) (fb : FramebufferDevice) (buf : Nat → Byte)
    {offset count : Nat} (hlo : -2 ^ 63 ≤ this.stSize) (hsize : this.stSize < 2 ^ 63)
    (hoff : offset < 2 ^ 63) (hcount : count < 2 ^ 64) :
    (Exact this.data this.stSize offset count (tmpfsResourceRead this offset count)
        (offT (tmpfsResourceRead this offset count).length) ↔
      offset ≤ this.stSize ∧ offset + count < 2 ^ 63) ∧
    (Exact this.data this.stSize offset count (devtmpfsResourceRead this offset count)
        (offT (devtmpfsResourceRead this offset count).length) ↔
      offset ≤ this.stSize ∧ offset + count < 2 ^ 63) ∧
    (Exact fb.address fb.smemLen.toNat offset count (fbdevRead fb offset count).1
        (fbdevRead fb offset count).2 ↔
      count = 0 ∨ offset ≤ fb.smemLen.toNat ∧ offset + count < 2 ^ 64) ∧
    (Stored fb buf offset count (fbdevWrite fb buf offset count) ↔
      count = 0 ∨ offset ≤ fb.smemLen.toNat ∧ offset + count < 2 ^ 64) :=
  ⟨tmpfsResourceRead_exact_iff this hlo hsize hoff hcount,
    tmpfsResourceRead_exact_iff this hlo hsize hoff hcount,
    fbdevRead_exact_iff fb hoff hcount, fbdevWrite_stored_iff fb buf hoff hcount⟩

/-- The beginning of an empty file, and of a framebuffer with two bytes. -/
theorem transfers_exact_start :
    Exact createTmpfsResource.data 0 0 5 (tmpfsResourceRead createTmpfsResource 0 5) 0 ∧
    (fbdevRead ⟨fun _ => 7, 2⟩ 0 5).2 = 2 := by
  have h := @transfers_exact_iff createTmpfsResource ⟨fun _ => 7, 2⟩ (fun _ => 0) 0 5
    (by decide) (by decide) (by decide) (by decide)
  exact ⟨h.1.mpr (by decide), (h.2.2.1.mpr (by decide)).2⟩

/-- One byte behind the end of an empty file, -1 as a `size_t` is the count of what is copied. -/
theorem read_behind_end :
    (tmpfsResourceRead createTmpfsResource 1 0).length = 2 ^ 64 - 1 ∧
    ¬ Exact createTmpfsResource.data 0 1 0 (tmpfsResourceRead createTmpfsResource 1 0)
      (offT (tmpfsResourceRead createTmpfsResource 1 0).length) := by
  constructor
  · unfold tmpfsResourceRead
    rw [length_slice]
    decide
  · intro h
    have hstart := (tmpfsResourceRead_exact_iff createTmpfsResource (by decide) (by decide)
      (by decide) (by decide)).mp h
    exact absurd hstart.1 (by decide)

end Lyre.Tmpfs

namespace Lyre.Fat32

open Tmpfs

variable {fs : Volume} {s : Transfer} {start e offset count : Nat} {l : List Nat} {size : Int}

/-! ## Files of FAT32 -/

theorem resreadCount_lt (hsize : size < 2 ^ 63) (hcount : count < 2 ^ 64) :
    Volume.resreadCount size offset count < 2 ^ 64 := by
  unfold Volume.resreadCount
  dsimp only
  split <;> try split
  all_goals omega

/-- The clamp of `fat32fs_resread`, which looks at the offset once more. -/
theorem resreadCount_iff (hlo : 0 ≤ size) (hsize : size < 2 ^ 63) (hoff : offset < 2 ^ 63)
    (hcount : count < 2 ^ 64) :
    Volume.resreadCount size offset count = wanted size offset count ↔
      offset + count < 2 ^ 63 ∨ size + 2 ^ 64 < offset + count := by
  change (if size < offT (offset + count) then _ else _) = _ ↔ _
  unfold wanted
  rcases Nat.lt_or_ge (offset + count) (2 ^ 63) with hlt | hge
  · rw [offT_of_lt hlt]
    split <;> try split
    all_goals omega
  · rw [offT_of_ge hge (by omega)]
    split <;> try split
    all_goals omega

/-- **`fat32fs_resread` reads what is wanted**, where `fat32fs_rwbytes` does, also behind the end of
the file: only an end that wraps makes it go wrong. -/
theorem resread_reads_iff (h : Walk fs start l e s) (hlo : 0 ≤ size) (hsize : size < 2 ^ 63)
    (hlong : size ≤ (l.length * fs.clustersize : Nat)) (hoff : offset < 2 ^ 63) (hcount : count < 2 ^ 64)
    (hserved : wanted size offset count ≠ 0 → fs.Served l offset (wanted size offset count)) :
    (∃ s', fs.resread s start size offset count = some (s', (wanted size offset count : Int)) ∧
      fs.Transfers l offset (wanted size offset count) false s s') ↔
      offset + count < 2 ^ 63 ∨ size + 2 ^ 64 < offset + count := by
  have hwanted : wanted size offset count < 2 ^ 63 := wanted_lt hsize
  have hin : wanted size offset count ≠ 0 →
      offset + wanted size offset count ≤ l.length * fs.clustersize := by
    unfold wanted
    omega
  rw [← resreadCount_iff hlo hsize hoff hcount]
  unfold Volume.resread
  have hlt : Volume.resreadCount size offset count < 2 ^ 64 := resreadCount_lt hsize hcount
  generalize Volume.resreadCount size offset count = c at hlt ⊢
  constructor
  · rintro ⟨s', heq, -⟩
    dsimp only at heq
    split at heq
    · next h0 =>
      have hret := (Prod.mk.inj (Option.some.inj heq)).2
      omega
    · obtain ⟨_, -, hpair⟩ := Option.map_eq_some_iff.mp heq
      exact offT_inj hlt hwanted (Prod.mk.inj hpair).2
  · rintro rfl
    by_cases h0 : wanted size offset count = 0
    · rw [if_pos h0, h0]
      exact ⟨s, rfl, .zero⟩
    · obtain ⟨s', hrun, ht⟩ := rwbytes_right h (hin h0) (hserved h0)
      rw [if_neg h0, hrun]
      exact ⟨s', congrArg some (Prod.ext rfl (offT_of_lt hwanted)), ht⟩

theorem resread_reads_iff_sample :
    (∃ s', sampleVolume.resread ⟨sampleDevice, sampleDevice⟩ 2 1000 100 2000 =
        some (s', (wanted 1000 100 2000 : Int)) ∧
      sampleVolume.Transfers [2, 4] 100 (wanted 1000 100 2000) false ⟨sampleDevice, sampleDevice⟩ s') ↔
      100 + 2000 < 2 ^ 63 ∨ (1000 : Int) + 2 ^ 64 < (100 : Nat) + (2000 : Nat) := by
  obtain ⟨e, h⟩ := exists_walk (s := ⟨sampleDevice, sampleDevice⟩) sampleVolume_sound
    (List.cons_ne_nil _ _) sampleDevice_chain
  refine resread_reads_iff h (by decide) (by decide) (by decide) (by decide) (by decide) fun _ =>
    ⟨by decide, fun _ hcount => absurd hcount (by decide), fun t hle hend => ?_⟩
  rw [show wanted 1000 100 2000 = 900 by decide] at hend
  simp only [sampleVolume] at hle hend
  omega

end Lyre.Fat32

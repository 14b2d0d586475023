import Lyre.Fs.Tmpfs
import Lyre.Infra.Bytes
import Lyre.Infra.Run

/-!
# Regular files of tmpfs are byte strings

A file stands for a string: its size is the length of the string, and its memory has the bytes of
the string with zeros behind them, up to the capacity (`Represents`). Writing is `splice`, reading
is a part of the string. The doubling loop ends because sums stay below 2^62.
-/

namespace Lyre.Tmpfs

open Infra Infra.Ring Infra.ByteString

variable {R : Realloc} {this this' : Resource} {content : List Byte} {offset count needed : Nat}
  {buf : List Byte} {memory : Bool}

/-! ## The abstract file -/

/-- The string after a call with this result: a write that succeeds pads it and puts its bytes. -/
def after (content : List Byte) : Call → Result → List Byte
  | .write offset buf _, .count _ => splice 0 content offset buf
  | _, _ => content

/-- What a call may return. A write fails only for want of memory. -/
inductive Returns (content : List Byte) : Call → Result → Prop
  | write (offset : Nat) (buf : List Byte) (memory : Bool) :
    Returns content (.write offset buf memory) (.count buf.length)
  | failed (offset : Nat) (buf : List Byte) : Returns content (.write offset buf false) .failed
  | read (offset count : Nat) : Returns content (.read offset count)
      (.bytes ((content.drop offset).take (min count (content.length - offset))))

/-- The calls that are meant: offsets and counts below 2^62 together, and reads that do not start
behind the end. -/
def Call.Ok (content : List Byte) : Call → Prop
  | .read offset count => offset + count < 2 ^ 62 ∧ offset ≤ content.length
  | .write offset buf _ => offset + buf.length < 2 ^ 62

structure Represents (this : Resource) (content : List Byte) : Prop where
  size : this.stSize = content.length
  blocks : this.stBlocks = ((content.length + 511) / 512 : Nat)
  room : content.length < this.capacity
  bytes : ∀ i < this.capacity, this.data i = content.getD i 0
  length_lt : content.length < 2 ^ 62
  capacity_le : this.capacity ≤ 2 ^ 63

theorem Represents.create : Represents createTmpfsResource [] where
  size := rfl
  blocks := rfl
  room := by decide
  bytes _ _ := rfl
  length_lt := by decide
  capacity_le := by decide

/-! ## Growing -/

theorem offT_of_lt {n : Nat} (h : n < 2 ^ 63) : offT n = n := by
  have hmod : (BitVec.ofNat 64 n).toNat = n := by
    rw [BitVec.toNat_ofNat, Nat.mod_eq_of_lt (by omega)]
  rw [offT, BitVec.toInt_eq_toNat_of_lt (by rw [hmod]; omega), hmod]

theorem growLoop_spec {fuel c : Nat} (hneeded : needed < 2 ^ 62) (hfuel : needed < c * 2 ^ fuel)
    (hle : c ≤ 2 ^ 63) :
    ∃ c', growLoop needed (fuel + 1) c = some c' ∧ needed < c' ∧ c ≤ c' ∧ c' ≤ 2 ^ 63 := by
  induction fuel generalizing c with
  | zero =>
    rw [Nat.pow_zero, Nat.mul_one] at hfuel
    exact ⟨c, if_neg (Nat.not_le.mpr hfuel), hfuel, Nat.le_refl c, hle⟩
  | succ fuel ih =>
    rw [growLoop]
    split
    · next hsmall =>
      have hdouble : needed < c * 2 * 2 ^ fuel := by
        rw [Nat.mul_assoc, ← Nat.pow_succ']
        exact hfuel
      rw [u64_of_lt (by omega)]
      obtain ⟨c', hloop, hlt, hge, hle'⟩ := ih hdouble (by omega)
      exact ⟨c', hloop, hlt, by omega, hle'⟩
    · next hlarge => exact ⟨c, rfl, Nat.not_le.mp hlarge, Nat.le_refl c, hle⟩

/-- What `reserve` leaves stands for the same string; it fails only for want of memory. -/
theorem reserve_spec (R : Realloc) (h : Represents this content) (hneeded : needed < 2 ^ 62)
    (memory : Bool) : ∃ ok this', reserve R this needed memory = some (ok, this') ∧
      Represents this' content ∧ (ok = true → needed < this'.capacity) ∧
      (ok = false → memory = false) := by
  unfold reserve
  split
  · next hsmall =>
    have hpos : 0 < this.capacity := Nat.zero_lt_of_lt h.room
    have hfuel : needed < this.capacity * 2 ^ 64 := by omega
    obtain ⟨c', hloop, hlt, hge, hle⟩ := growLoop_spec hneeded hfuel h.capacity_le
    rw [hloop, Option.map_some]
    cases memory with
    | false => exact ⟨false, this, rfl, h, by simp, fun _ => rfl⟩
    | true =>
      refine ⟨true, _, rfl, ⟨h.size, h.blocks, Nat.lt_of_lt_of_le h.room hge, fun i hi => ?_,
        h.length_lt, hle⟩, fun _ => hlt, by simp⟩
      by_cases hold : i < this.capacity
      · exact (R.keeps _ _ _ i hold).trans (h.bytes i hold)
      · have hroom := h.room
        refine (R.zeroes _ _ _ i (Nat.le_of_not_lt hold) hi).trans ?_
        exact (List.getD_eq_default _ _ (by omega)).symm
  · next hlarge => exact ⟨true, this, rfl, h, fun _ => Nat.not_le.mp hlarge, by simp⟩

/-! ## Reading and writing -/

theorem read_spec (h : Represents this content) (hlt : offset + count < 2 ^ 62)
    (hoff : offset ≤ content.length) :
    tmpfsResourceRead this offset count
      = (content.drop offset).take (min count (content.length - offset)) := by
  have hsize := h.length_lt
  have hroom := h.room
  have hactual : (if this.stSize ≤ offT (offset + count) then
      (BitVec.ofNat 64 count - (BitVec.ofNat 64 (offset + count) - BitVec.ofInt 64 this.stSize)).toNat
      else count) = min count (content.length - offset) := by
    rw [offT_of_lt (by omega), h.size]
    split
    · next hend =>
      have hend' : content.length ≤ offset + count := by exact_mod_cast hend
      rw [BitVec.ofInt_natCast]
      bv_omega
    · next hend =>
      have hend' : offset + count < content.length := by exact_mod_cast Int.not_le.mp hend
      omega
  unfold tmpfsResourceRead
  rw [hactual, drop_take_eq 0 (by omega)]
  refine List.map_congr_left fun k hk => ?_
  rw [List.mem_range] at hk
  exact h.bytes (offset + k) (by omega)

theorem represents_blit (h : Represents this content) (hroom : offset + buf.length < this.capacity)
    (hlt : offset + buf.length < 2 ^ 62) :
    Represents (if this.stSize ≤ offT (offset + buf.length) then
        { this with
          data := blit this.data offset buf
          stSize := offT (offset + buf.length)
          stBlocks := (offT (offset + buf.length) + (stBlksize - 1)).tdiv stBlksize }
      else { this with data := blit this.data offset buf }) (splice 0 content offset buf) := by
  have hold := h.room
  have hbytes : ∀ i < this.capacity, blit this.data offset buf i
      = (splice 0 content offset buf).getD i 0 := by
    intro i hi
    rw [getD_splice]
    by_cases hin : offset ≤ i ∧ i < offset + buf.length
    · rw [if_pos hin, blit, if_pos hin.1, List.getElem?_eq_getElem (by omega), Option.getD_some,
        List.getD_eq_getElem _ _ (by omega)]
    · rw [if_neg hin, blit_apply_of_not hin, h.bytes i hi]
  rw [offT_of_lt (by omega), h.size]
  split
  · next hend =>
    have hend' : content.length ≤ offset + buf.length := by exact_mod_cast hend
    have hlen : (splice 0 content offset buf).length = offset + buf.length := by
      rw [length_splice, Nat.max_eq_right hend']
    refine ⟨by rw [hlen], ?_, by rw [hlen]; exact hroom, hbytes, by rw [hlen]; exact hlt,
      h.capacity_le⟩
    rw [hlen]
    show ((offset + buf.length : Nat) + (512 - 1) : Int).tdiv 512 = _
    rw [Int.tdiv_eq_ediv_of_nonneg (by omega)]
    omega
  · next hend =>
    have hend' : offset + buf.length < content.length := by omega
    have hlen : (splice 0 content offset buf).length = content.length := by
      rw [length_splice, Nat.max_eq_left (Nat.le_of_lt hend')]
    exact ⟨by rw [hlen], by rw [hlen]; exact h.blocks, by rw [hlen]; exact h.room,
      hbytes, by rw [hlen]; exact h.length_lt, h.capacity_le⟩

theorem next_spec {c : Call} (R : Realloc) (h : Represents this content) (hok : c.Ok content) :
    ∃ this' r, next R this c = some (this', r) ∧ Returns content c r ∧
      Represents this' (after content c r) := by
  cases c with
  | read offset count =>
    refine ⟨this, _, rfl, ?_, h⟩
    rw [read_spec h hok.1 hok.2]
    exact .read offset count
  | write offset buf memory =>
    have hlt : offset + buf.length < 2 ^ 62 := hok
    obtain ⟨ok, this', hres, h', hroom, hfail⟩ := reserve_spec R h hlt memory
    have hsum : u64 (offset + buf.length) = offset + buf.length := u64_of_lt (by omega)
    simp only [next, tmpfsResourceWrite, hsum, hres, Option.map_some]
    cases ok with
    | false =>
      rw [hfail rfl]
      exact ⟨this', .failed, rfl, .failed offset buf, h'⟩
    | true =>
      refine ⟨_, .count buf.length, rfl, .write offset buf memory, ?_⟩
      exact represents_blit h' (hroom rfl) hlt

/-! ## Runs -/

/-- The file, with the string that its calls have made. -/
def Step (R : Realloc) (s : Resource × List Byte) (c : Call) (s' : Resource × List Byte) : Prop :=
  ∃ r, next R s.1 c = some (s'.1, r) ∧ s'.2 = after s.2 c r

/-- Calls on a new file. -/
def Run (R : Realloc) : Resource × List Byte → Prop :=
  Reach (Step R) (fun s c => c.Ok s.2) (createTmpfsResource, [])

theorem Represents.step {s s' : Resource × List Byte} {c : Call} (h : Represents s.1 s.2)
    (hok : c.Ok s.2) (hstep : Step R s c s') : Represents s'.1 s'.2 := by
  obtain ⟨r, hnext, hafter⟩ := hstep
  obtain ⟨this', r', hnext', -, h'⟩ := next_spec R h hok
  obtain ⟨hthis, rfl⟩ := Prod.mk.inj (Option.some.inj (hnext.symm.trans hnext'))
  rw [hthis, hafter]
  exact h'

/-- **A file is the string its calls have made**: the size is the length of the string, there is
room beyond it, and the next call returns what it returns for the string. -/
theorem file_is_string (R : Realloc) {s : Resource × List Byte} (h : Run R s) :
    s.1.stSize = s.2.length ∧ s.1.stSize < s.1.capacity ∧
    (∀ i < s.1.capacity, s.1.data i = s.2.getD i 0) ∧
    ∀ c : Call, c.Ok s.2 → ∃ this' r, next R s.1 c = some (this', r) ∧ Returns s.2 c r ∧
      Run R (this', after s.2 c r) := by
  have hrep : Represents s.1 s.2 := by
    induction h with
    | refl => exact .create
    | tail hrun hok hstep ih => exact ih.step hok hstep
  refine ⟨hrep.size, ?_, hrep.bytes, fun c hok => ?_⟩
  · rw [hrep.size]
    exact_mod_cast hrep.room
  · obtain ⟨this', r, hnext, hret, -⟩ := next_spec R hrep hok
    exact ⟨this', r, hnext, hret, h.tail hok ⟨r, hnext, rfl⟩⟩

/-- `slab_realloc` for blocks of pages. -/
def pageRealloc : Realloc where
  run data old new := fun i => if i < old then data i else if i < new then 0 else data i
  keeps data old new i h := if_pos h
  zeroes data old new i hold hnew := by
    rw [if_neg (Nat.not_lt.mpr hold), if_pos hnew]

/-- Three bytes are written five bytes into a new file. -/
theorem file_is_string_write :
    ∃ this, next pageRealloc createTmpfsResource (.write 5 [1, 2, 3] true)
      = some (this, .count 3) ∧ this.stSize = 8 ∧ this.stSize < this.capacity := by
  refine ⟨_, rfl, rfl, ?_⟩
  have hok : (Call.write 5 [1, 2, 3] true).Ok [] := show 5 + 3 < 2 ^ 62 by decide
  have hrun : Run pageRealloc (_, after [] (.write 5 [1, 2, 3] true) (.count 3)) :=
    Reach.tail .refl hok ⟨_, rfl, rfl⟩
  exact (file_is_string pageRealloc hrun).2.1

end Lyre.Tmpfs

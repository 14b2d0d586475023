import Lyre.Dev.Partition

/-!
# Partitions and their table entries

An entry of a GPT names its first and its last LBA, an entry of an MBR its first sector and how many
there are. `partition_enum` takes the difference of two LBAs for a number of bytes, and multiplies
sectors in 32 bits, so that only a small partition of an MBR has its size. `readpart` and `writepart`
look at where a request begins, and let it run on behind the end of the partition.
-/

namespace Lyre.Partition

open Infra.Bytes

variable {root : Root} {blocksize n : Nat} {dev : PartitionDevice}

/-- A part of the disk, in bytes. -/
structure Extent where
  first : Nat
  size : Nat
  deriving DecidableEq, Repr

/-- From the first LBA to the last one. -/
def GptEntry.extent (blocksize : Nat) (entry : GptEntry) : Extent :=
  ⟨entry.start * blocksize, (entry.last + 1 - entry.start) * blocksize⟩

def MbrEntry.extent (blocksize : Nat) (entry : MbrEntry) : Extent :=
  ⟨entry.startsect * blocksize, entry.sectors * blocksize⟩

/-- What the entry of the partition with number `n` says. -/
def Root.extent (root : Root) (blocksize n : Nat) : Extent :=
  if root.isGpt then (root.gptEntry (n - 1)).extent blocksize
  else (root.mbrEntry (n - 1)).extent blocksize

/-- How far into the partition a request may begin. -/
def Root.bound (root : Root) (blocksize n : Nat) : Nat :=
  if root.isGpt then
    ((root.gptEntry (n - 1)).last - (root.gptEntry (n - 1)).start) / blocksize * blocksize
  else (root.mbrEntry (n - 1)).sectors * blocksize

/-- The blocks have a size, and the partitions of a GPT lie inside a disk whose size is an
`off_t`. -/
structure Valid (root : Root) (blocksize : Nat) : Prop where
  pos : 0 < blocksize
  lt : blocksize < 2 ^ 16
  entries : root.isGpt → ∀ i < root.header.entries, (root.gptEntry i).used →
    (root.gptEntry i).start ≤ (root.gptEntry i).last ∧
      ((root.gptEntry i).last + 1) * blocksize < 2 ^ 63

/-- The root is asked for nothing but bytes of the partition. -/
def Extent.Holds (x : Extent) (asked : Option (Nat × Nat)) : Prop :=
  ∀ loc count, asked = some (loc, count) →
    ∀ i, loc ≤ i → i < loc + count → x.first ≤ i ∧ i < x.first + x.size

theorem u64Sub_of_le {a b : Nat} (h : b ≤ a) (ha : a < 2 ^ 64) : u64Sub a b = a - b := by
  unfold u64Sub u64
  omega

theorem offT_of_lt {n : Nat} (h : n < 2 ^ 63) : offT n = n := by
  unfold offT
  rw [BitVec.toInt_eq_toNat_cond, BitVec.toNat_ofNat]
  split <;> omega

/-- A request lies inside of a partition that begins where the device says, if it is refused or ends
inside. -/
theorem request_holds_iff {x : Extent} (hfirst : x.first = dev.start * dev.blksize)
    (hbound : dev.sectors * dev.blksize ≤ x.size) (hend : x.first + x.size < 2 ^ 64)
    (loc count : Nat) :
    x.Holds (request dev loc count) ↔ dev.sectors * dev.blksize ≤ loc ∨ loc + count ≤ x.size := by
  unfold request
  rw [u64_of_lt (by omega)]
  split
  · next hrefused => simp [Extent.Holds, hrefused]
  · next hlt =>
    rw [← hfirst, u64_of_lt (by omega)]
    constructor
    · intro h
      refine .inr ?_
      by_contra hover
      -- the last byte of the request lies outside
      have hlast := h _ _ rfl (loc + x.first + count - 1) (by omega) (by omega)
      omega
    · rintro (hge | hle)
      · exact absurd hge hlt
      · intro loc' count' heq i hlo hhi
        obtain ⟨rfl, rfl⟩ := Prod.mk.inj (Option.some.inj heq)
        omega

/-! ## The devices of a table -/

theorem mem_partitionEnum (h : (n, dev) ∈ partitionEnum root blocksize) :
    (root.isGpt = true ∧ n - 1 < root.header.entries ∧ (root.gptEntry (n - 1)).used = true ∧
      dev = (root.gptEntry (n - 1)).device blocksize) ∨
    (root.isGpt = false ∧ dev = (root.mbrEntry (n - 1)).device blocksize) := by
  unfold partitionEnum at h
  split at h
  · next hgpt =>
    obtain ⟨i, hi, heq⟩ := List.mem_map.mp h
    obtain ⟨hlt, hused⟩ := List.mem_filter.mp hi
    obtain ⟨rfl, rfl⟩ := Prod.mk.inj heq
    exact .inl ⟨hgpt, List.mem_range.mp hlt, hused, rfl⟩
  · next hmbr =>
    dsimp only at h
    split at h
    · cases h
    · obtain ⟨i, -, heq⟩ := List.mem_map.mp h
      obtain ⟨rfl, rfl⟩ := Prod.mk.inj heq
      exact .inr ⟨by simpa using hmbr, rfl⟩

/-- A device of a GPT: it is smaller than its entry by a factor of the block size, and by a block. -/
theorem gpt_device {entry : GptEntry} (hpos : 0 < blocksize) (hle : entry.start ≤ entry.last)
    (hend : (entry.last + 1) * blocksize < 2 ^ 63) :
    let dev := entry.device blocksize
    let x := entry.extent blocksize
    dev.stSize < x.size ∧ dev.sectors * dev.blksize = (entry.last - entry.start) / blocksize * blocksize ∧
      dev.sectors * dev.blksize ≤ x.size ∧ x.first + x.size < 2 ^ 64 := by
  intro dev x
  have hlast : entry.last + 1 ≤ (entry.last + 1) * blocksize := Nat.le_mul_of_pos_right _ hpos
  have hsub : u64Sub entry.last entry.start = entry.last - entry.start :=
    u64Sub_of_le hle (by omega)
  have hsize : entry.last + 1 - entry.start ≤ x.size := Nat.le_mul_of_pos_right _ hpos
  have hsectors : dev.sectors * dev.blksize = (entry.last - entry.start) / blocksize * blocksize := by
    show u64Sub entry.last entry.start / blocksize * blocksize = _
    rw [hsub]
  have hround : (entry.last - entry.start) / blocksize * blocksize ≤ entry.last - entry.start :=
    Nat.div_mul_le_self _ _
  refine ⟨?_, hsectors, by omega, ?_⟩
  · have hst : dev.stSize = ((entry.last - entry.start : Nat) : Int) := by
      show offT (u64Sub entry.last entry.start) = _
      rw [hsub, offT_of_lt (by omega)]
    omega
  · have hsum : x.first + x.size = (entry.last + 1) * blocksize := by
      show entry.start * blocksize + (entry.last + 1 - entry.start) * blocksize = _
      rw [← Nat.add_mul]
      congr 1
      omega
    omega

theorem mbrEntry_lt (root : Root) (i : Nat) :
    (root.mbrEntry i).startsect < 2 ^ 32 ∧ (root.mbrEntry i).sectors < 2 ^ 32 :=
  ⟨read_lt root.bytes 4 _, read_lt root.bytes 4 _⟩

theorem mbr_device {entry : MbrEntry} (hstart : entry.startsect < 2 ^ 32)
    (hsectors : entry.sectors < 2 ^ 32) (hlt : blocksize < 2 ^ 16) :
    let dev := entry.device blocksize
    let x := entry.extent blocksize
    (dev.stSize = x.size ↔ x.size < 2 ^ 32) ∧ dev.sectors * dev.blksize = x.size ∧
      x.first + x.size < 2 ^ 64 := by
  intro dev x
  have hfirst : x.first < 2 ^ 32 * 2 ^ 16 := Nat.mul_lt_mul'' hstart hlt
  have hsize : x.size < 2 ^ 32 * 2 ^ 16 := Nat.mul_lt_mul'' hsectors hlt
  refine ⟨?_, rfl, by omega⟩
  show ((x.size % 2 ^ 32 : Nat) : Int) = x.size ↔ _
  omega

/-- **The size of a partition device, and what its requests reach**: the size is right if the table
is an MBR and the partition is smaller than 4 GiB, and a request stays inside if it is refused or
ends inside. -/
theorem partition_exact_iff (hvalid : Valid root blocksize)
    (h : (n, dev) ∈ partitionEnum root blocksize) :
    (dev.stSize = (root.extent blocksize n).size ↔
      root.isGpt = false ∧ (root.extent blocksize n).size < 2 ^ 32) ∧
    ∀ loc count,
      ((root.extent blocksize n).Holds (readpart dev loc count) ↔
        root.bound blocksize n ≤ loc ∨ loc + count ≤ (root.extent blocksize n).size) ∧
      ((root.extent blocksize n).Holds (writepart dev loc count) ↔
        root.bound blocksize n ≤ loc ∨ loc + count ≤ (root.extent blocksize n).size) := by
  obtain ⟨hgpt, hlt, hused, rfl⟩ | ⟨hmbr, rfl⟩ := mem_partitionEnum h
  · obtain ⟨hle, hend⟩ := hvalid.entries hgpt _ hlt hused
    obtain ⟨hsmall, hbound, hin, htotal⟩ := gpt_device hvalid.pos hle hend
    have hholds := request_holds_iff rfl hin htotal
    rw [hbound] at hholds
    unfold Root.extent Root.bound
    simp only [hgpt, if_true]
    refine ⟨⟨fun heq => ?_, fun hno => absurd hno.1 (by decide)⟩, fun loc count => ⟨hholds loc count, hholds loc count⟩⟩
    omega
  · obtain ⟨hstart, hsectors⟩ := mbrEntry_lt root (n - 1)
    obtain ⟨hsize, hbound, htotal⟩ := mbr_device hstart hsectors hvalid.lt
    have hholds := request_holds_iff rfl (Nat.le_of_eq hbound) htotal
    rw [hbound] at hholds
    unfold Root.extent Root.bound
    simp only [hmbr, Bool.false_eq_true, if_false, true_and]
    exact ⟨hsize, fun loc count => ⟨hholds loc count, hholds loc count⟩⟩

/-- A disk with an MBR: its first partition has eight sectors, from sector 1 on. -/
def mbrDisk : Root where
  bytes := write (write (write (fun _ => 0) (446 + 4) 1 0x83) (446 + 8) 4 1) (446 + 12) 4 8
  stSize := 1048576

/-- A disk with a GPT of one entry, for the LBAs from 64 to 127. -/
def gptDisk : Root where
  bytes :=
    let header := write (write (write (fun _ => 0) 512 8 efiPart) (512 + 12) 4 92) (512 + 24) 8 1
    let header := write (write header (512 + 72) 8 2) (512 + 80) 4 1
    write (write (write header (1024 + 16) 8 1) (1024 + 32) 8 64) (1024 + 40) 8 127
  stSize := 1048576

/-- Reading the eight sectors. -/
theorem partition_exact_mbr : (1, ⟨1, 8, 512, 4096, 8⟩) ∈ partitionEnum mbrDisk 512 ∧
    (mbrDisk.extent 512 1).Holds (readpart ⟨1, 8, 512, 4096, 8⟩ 0 4096) := by
  have hmem : (1, ⟨1, 8, 512, 4096, 8⟩) ∈ partitionEnum mbrDisk 512 := by decide
  have hvalid : Valid mbrDisk 512 := ⟨by decide, by decide, fun h => absurd h (by decide)⟩
  exact ⟨hmem, (((partition_exact_iff hvalid hmem).2 0 4096).1).mpr (.inr (by decide))⟩

/-- The partition has 32768 bytes, its device 63; one byte too many of it is read. -/
theorem gpt_size_wrong : ∃ dev, (1, dev) ∈ partitionEnum gptDisk 512 ∧
    dev.stSize = 63 ∧ (gptDisk.extent 512 1).size = 32768 ∧
    (1, (⟨1, 8, 512, 4096, 8⟩ : PartitionDevice)) ∈ partitionEnum mbrDisk 512 ∧
    ¬ (mbrDisk.extent 512 1).Holds (readpart ⟨1, 8, 512, 4096, 8⟩ 0 4097) := by
  refine ⟨⟨64, 0, 512, 63, 0⟩, by decide, rfl, by decide, by decide, ?_⟩
  intro h
  have hlast := h 512 4097 (by decide) 4608 (by decide) (by decide)
  exact absurd hlast (by decide)

end Lyre.Partition

import Lyre.Infra.Bytes
import Lyre.Lib.Misc

/-!
# Partitions, `dev/storage/partition.c`

The root block device is given by its bytes and its size; its `read` and `write` do what they are
asked for. What `readpart` and `writepart` do is the request that they pass on to it, at an offset and
with a count.

The structures of the tables are laid out as the compiler does it, with little-endian numbers.
-/

namespace Lyre.Partition

open Infra.Bytes

/-- `struct resource` of the root block device. -/
structure Root where
  bytes : Mem
  stSize : Int

/-- A `uint64_t` difference. -/
def u64Sub (a b : Nat) : Nat := u64 (a + (2 ^ 64 - u64 b))

/-- A `uint64_t` as an `off_t`. -/
def offT (n : Nat) : Int := (BitVec.ofNat 64 n).toInt

/-! ## The tables -/

/-- The fields of `struct gpt_header` that are looked at. -/
structure GptHeader where
  sig : Nat
  len : Nat
  lba : Nat
  first : Nat
  last : Nat
  partlba : Nat
  entries : Nat
  deriving DecidableEq, Repr

/-- The header at byte 512. -/
def Root.header (root : Root) : GptHeader where
  sig := read root.bytes 512 8
  len := read root.bytes (512 + 12) 4
  lba := read root.bytes (512 + 24) 8
  first := read root.bytes (512 + 40) 8
  last := read root.bytes (512 + 48) 8
  partlba := read root.bytes (512 + 72) 8
  entries := read root.bytes (512 + 80) 4

/-- The fields of `struct gpt_entry` that are looked at. -/
structure GptEntry where
  unilow : Nat
  unihi : Nat
  start : Nat
  /-- `end`. -/
  last : Nat
  attr : Nat
  deriving DecidableEq, Repr

def gptEntrySize : Nat := 128

/-- The entry that turn `i` of the loop reads. -/
def Root.gptEntry (root : Root) (i : Nat) : GptEntry :=
  let loc := u64 (root.header.partlba * 512 + i * gptEntrySize)
  { unilow := read root.bytes (loc + 16) 8
    unihi := read root.bytes (loc + 24) 8
    start := read root.bytes (loc + 32) 8
    last := read root.bytes (loc + 40) 8
    attr := read root.bytes (loc + 48) 8 }

/-- The fields of `struct mbr_entry` that are looked at. -/
structure MbrEntry where
  type : Nat
  startsect : Nat
  sectors : Nat
  deriving DecidableEq, Repr

def mbrEntrySize : Nat := 16

/-- `entries[i]`. -/
def Root.mbrEntry (root : Root) (i : Nat) : MbrEntry :=
  let loc := 446 + i * mbrEntrySize
  { type := read root.bytes (loc + 4) 1
    startsect := read root.bytes (loc + 8) 4
    sectors := read root.bytes (loc + 12) 4 }

/-! ## The devices -/

/-- `struct partition_device`, less its root. -/
structure PartitionDevice where
  start : Nat
  sectors : Nat
  blksize : Nat
  stSize : Int
  stBlocks : Int
  deriving DecidableEq, Repr

/-- "EFI PART", as a number. -/
def efiPart : Nat := 0x5452415020494645

/-- The checks of the header, in their order. -/
def Root.isGpt (root : Root) : Bool :=
  let header := root.header
  !(header.sig ≠ efiPart || header.len < 92 || root.stSize < header.len || header.lba ≠ 1 ||
    header.last < header.first)

/-- `GPT_DONTMOUNT | GPT_LEGACY`. -/
def skipped : Nat := 2 ||| 4

/-- The entry is neither empty nor one that is skipped. -/
def GptEntry.used (entry : GptEntry) : Bool :=
  !(entry.unilow = 0 && entry.unihi = 0) && (entry.attr &&& skipped) = 0

def GptEntry.device (blocksize : Nat) (entry : GptEntry) : PartitionDevice where
  start := entry.start
  sectors := u64Sub entry.last entry.start / blocksize
  blksize := blocksize
  stSize := offT (u64Sub entry.last entry.start)
  stBlocks := offT (u64Sub entry.last entry.start / blocksize)

/-- The product is one of two 32-bit numbers. -/
def MbrEntry.device (blocksize : Nat) (entry : MbrEntry) : PartitionDevice where
  start := entry.startsect
  sectors := entry.sectors
  blksize := blocksize
  stSize := (entry.sectors * blocksize % 2 ^ 32 : Nat)
  stBlocks := entry.sectors

/-- The devices that `partition_enum` makes, with their numbers. -/
def partitionEnum (root : Root) (blocksize : Nat) : List (Nat × PartitionDevice) :=
  if root.isGpt then
    ((List.range root.header.entries).filter fun i => (root.gptEntry i).used).map fun i =>
      (i + 1, (root.gptEntry i).device blocksize)
  else
    let hint := read root.bytes 444 2
    if hint ≠ 0 ∧ hint ≠ 0x5a5a then []
    else
      ((List.range 4).filter fun i => (root.mbrEntry i).type ≠ 0).map fun i =>
        (i + 1, (root.mbrEntry i).device blocksize)

/-! ## Reading and writing -/

/-- The offset and the count that the root is asked for; `none` for -1. -/
def request (this : PartitionDevice) (loc count : Nat) : Option (Nat × Nat) :=
  if u64 (this.sectors * this.blksize) ≤ loc then none
  else some (u64 (loc + this.start * this.blksize), count)

/-- What `readpart` asks the root for. -/
def readpart (this : PartitionDevice) (loc count : Nat) : Option (Nat × Nat) := request this loc count

/-- What `writepart` asks the root for. -/
def writepart (this : PartitionDevice) (loc count : Nat) : Option (Nat × Nat) := request this loc count

end Lyre.Partition

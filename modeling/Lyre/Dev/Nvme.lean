import Lyre.Infra.Ring
import Mathlib.Algebra.GroupWithZero.Nat

/-!
# The block cache of `dev/storage/nvme/nvme.c`

The medium and the memory of a slot are functions of the offset. `nvme_rwlba` transfers the LBAs it
asks for, less those behind the namespace; queues and physical region pages have no counterpart, and
`alloc` finds memory for a slot.

Offsets are an `off_t` that is not negative, and a buffer is shorter than 2^63 bytes, so that no sum
of the two wraps: numbers are `Nat`.
-/

namespace Lyre.Nvme

open Infra.Ring

abbrev Byte := BitVec 8

/-- `NVME_WAITCACHE`, `NVME_READYCACHE` and `NVME_DIRTYCACHE`. -/
inductive CacheStatus where
  | wait
  | ready
  | dirty
  deriving DecidableEq, Repr

/-- `struct cachedblock`. -/
structure Cachedblock where
  cache : Nat → Byte
  block : Nat
  status : CacheStatus

/-- `struct nvme_nsdevice`, with the medium behind it. -/
structure Nsdevice where
  lbasize : Nat
  lbacount : Nat
  overwritten : Nat
  cacheblocksize : Nat
  cache : Nat → Cachedblock
  medium : Nat → Byte

/-- `nvme_initnamespace`. -/
def nvmeInitnamespace (lbashift size : Nat) (medium : Nat → Byte) : Nsdevice where
  lbasize := 2 ^ lbashift
  lbacount := size
  overwritten := 0
  cacheblocksize := 2 ^ lbashift * 4
  cache _ := ⟨fun _ => 0, 0, .wait⟩
  medium := medium

def Nsdevice.setSlot (ns : Nsdevice) (slot : Nat) (b : Cachedblock) : Nsdevice :=
  { ns with cache := fun i => if i = slot then b else ns.cache i }

/-! ## Transfers -/

/-- The count that `nvme_rwlba` puts into the command. -/
def rwlbaCount (ns : Nsdevice) (start count : Nat) : Nat :=
  if ns.lbacount ≤ start + count then count - (start + count - ns.lbacount) else count

/-- `nvme_rwlba` that reads: the buffer afterwards. -/
def nvmeRwlbaRead (ns : Nsdevice) (buf : Nat → Byte) (start count : Nat) : Nat → Byte :=
  blit buf 0 (slice ns.medium (start * ns.lbasize) (rwlbaCount ns start count * ns.lbasize))

/-- `nvme_rwlba` that writes: the medium afterwards. -/
def nvmeRwlbaWrite (ns : Nsdevice) (buf : Nat → Byte) (start count : Nat) : Nsdevice :=
  { ns with
    medium := blit ns.medium (start * ns.lbasize)
      (slice buf 0 (rwlbaCount ns start count * ns.lbasize)) }

/-! ## The cache -/

def nvmeFindblock (ns : Nsdevice) (block : Nat) : Option Nat :=
  (List.range 512).find? fun i => (ns.cache i).block = block ∧ (ns.cache i).status ≠ .wait

/-- A slot for a block that has none: the first that is free, else the one at the cursor. The cursor
is not moved on when it starts again. -/
def cacheTarget (ns : Nsdevice) : Nat × Nsdevice :=
  match (List.range 512).find? fun i => (ns.cache i).status = .wait with
  | some target => (target, ns.setSlot target { ns.cache target with cache := fun _ => 0 })
  | none =>
    if ns.overwritten = 512 then (0, { ns with overwritten := 0 })
    else (ns.overwritten, { ns with overwritten := ns.overwritten + 1 })

def nvmeCacheblock (ns : Nsdevice) (block : Nat) : Nat × Nsdevice :=
  let (target, ns) := cacheTarget ns
  let blocks := ns.cacheblocksize / ns.lbasize
  (target, ns.setSlot target
    ⟨nvmeRwlbaRead ns (ns.cache target).cache (blocks * block) blocks, block, .ready⟩)

/-- The slot in which `nvme_read` and `nvme_write` have a block. -/
def slotOf (ns : Nsdevice) (sector : Nat) : Nat × Nsdevice :=
  match nvmeFindblock ns sector with
  | some slot => (slot, ns)
  | none => nvmeCacheblock ns sector

/-! ## Reading and writing -/

/-- How far the turn of a loop that is at `pos` goes, with `left` bytes to do. -/
def chunkAt (ns : Nsdevice) (pos left : Nat) : Nat :=
  let off := pos % ns.cacheblocksize
  if ns.cacheblocksize - off < left then ns.cacheblocksize - off else left

/-- The loop of `nvme_read`, with the bytes that are in the buffer; `none` if it does not end. -/
def readLoop (loc count : Nat) : Nat → Nsdevice → List Byte → Option (List Byte × Nsdevice)
  | 0, _, _ => none
  | fuel + 1, ns, buf =>
    let progress := buf.length
    if progress < count then
      let (slot, ns) := slotOf ns ((loc + progress) / ns.cacheblocksize)
      let chunk := chunkAt ns (loc + progress) (count - progress)
      let off := (loc + progress) % ns.cacheblocksize
      readLoop loc count fuel ns (buf ++ slice (ns.cache slot).cache off chunk)
    else some (buf, ns)

def nvmeRead (ns : Nsdevice) (loc count : Nat) : Option (List Byte × Nsdevice) :=
  readLoop loc count (count + 1) ns []

/-- Bytes are stored in a slot, and the slot is written to the medium. -/
def writeSlot (ns : Nsdevice) (slot off : Nat) (chunk : List Byte) : Nsdevice :=
  let b := { ns.cache slot with cache := blit (ns.cache slot).cache off chunk, status := .ready }
  let blocks := ns.cacheblocksize / ns.lbasize
  nvmeRwlbaWrite (ns.setSlot slot b) b.cache (blocks * b.block) blocks

/-- One turn of the loop of `nvme_write`. -/
def writeChunk (ns : Nsdevice) (pos : Nat) (chunk : List Byte) : Nsdevice :=
  let (slot, ns) := slotOf ns (pos / ns.cacheblocksize)
  writeSlot ns slot (pos % ns.cacheblocksize) chunk

def writeLoop (loc : Nat) (buf : List Byte) : Nat → Nsdevice → Nat → Option Nsdevice
  | 0, _, _ => none
  | fuel + 1, ns, progress =>
    if progress < buf.length then
      let chunk := chunkAt ns (loc + progress) (buf.length - progress)
      writeLoop loc buf fuel (writeChunk ns (loc + progress) ((buf.drop progress).take chunk))
        (progress + chunk)
    else some ns

def nvmeWrite (ns : Nsdevice) (loc : Nat) (buf : List Byte) : Option (Nat × Nsdevice) :=
  (writeLoop loc buf (buf.length + 1) ns 0).map fun ns => (buf.length, ns)

/-! ## Runs -/

inductive Call where
  | read (loc count : Nat)
  | write (loc : Nat) (buf : List Byte)

inductive Result where
  | bytes (data : List Byte)
  | count (n : Nat)
  deriving DecidableEq, Repr

def next (ns : Nsdevice) : Call → Option (Nsdevice × Result)
  | .read loc count => (nvmeRead ns loc count).map fun (buf, ns) => (ns, .bytes buf)
  | .write loc buf => (nvmeWrite ns loc buf).map fun (n, ns) => (ns, .count n)

end Lyre.Nvme

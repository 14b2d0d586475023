import Lyre.Dev.Nvme
import Lyre.Lib.Misc

/-!
# The commands of `dev/storage/nvme/nvme.c`

`nvme_read` and `nvme_write` once more, with the commands that they put into the queue of a namespace
in the place of the bytes that are transferred. Offsets and counts are any `uint64_t` here, and sums
wrap.

A pointer is named by the physical address of what it points to: `VMM_HIGHER_HALF` is taken off already.
`buffers` are the addresses that `alloc` finds for the slots of the cache. The device answers each
command, and without an error. An assertion that fails stops the kernel: no command follows.
-/

namespace Lyre.NvmeQueue

open Lyre.Nvme (CacheStatus)

/-- The `rw` commands of `struct nvme_cmd`, without the fields that are zero in all of them. -/
structure Cmd where
  /-- The opcode is `NVME_OPWRITE`, and not `NVME_OPREAD`. -/
  write : Bool
  cid : Nat
  nsid : Nat
  slba : Nat
  len : Nat
  prp1 : Nat
  prp2 : Nat
  deriving DecidableEq

/-- What `nvme_rwlba` issues: a command for a buffer, at a `cmdid`, with the entries that it writes to
`physregpgs`, if the command points there. -/
structure Issued where
  cmd : Cmd
  buf : Nat
  cmdid : Nat
  list : Option (List (Nat × Nat))
  deriving DecidableEq

/-- `struct nvme_queue`. -/
structure Queue where
  elements : Nat
  sqtail : Nat
  cqhead : Nat
  cqphase : Bool
  qid : Nat
  cmdid : Nat
  physregpgs : Nat

/-- `struct cachedblock`, without its bytes. -/
structure Cachedblock where
  cache : Nat
  block : Nat
  status : CacheStatus

/-- `struct nvme_nsdevice`, with the commands that have been issued, the last one first. -/
structure Nsdevice where
  queue : Queue
  nsid : Nat
  lbasize : Nat
  lbacount : Nat
  maxphysrpgs : Nat
  overwritten : Nat
  cacheblocksize : Nat
  cache : Nat → Cachedblock
  buffers : Nat → Nat
  issued : List Issued
  panicked : Bool

/-- `nvme_createqueue`, with the address of `physregpgs`. -/
def nvmeCreatequeue (slots id physregpgs : Nat) : Queue where
  elements := slots
  sqtail := 0
  cqhead := 0
  cqphase := true
  qid := id
  cmdid := 0
  physregpgs := physregpgs

/-- `nvme_initnamespace`, where the shifts are inside an `int`. -/
def nvmeInitnamespace (id lbashift size maxtransshift queueslots physregpgs : Nat)
    (buffers : Nat → Nat) : Nsdevice where
  queue := nvmeCreatequeue queueslots id physregpgs
  nsid := id
  lbasize := 2 ^ lbashift
  lbacount := size
  maxphysrpgs := 2 ^ (maxtransshift - lbashift) * 2 ^ lbashift / pageSize
  overwritten := 0
  cacheblocksize := 2 ^ lbashift * 4
  cache _ := ⟨0, 0, .wait⟩
  buffers := buffers
  issued := []
  panicked := false

def Nsdevice.setSlot (ns : Nsdevice) (slot : Nat) (b : Cachedblock) : Nsdevice :=
  { ns with cache := fun i => if i = slot then b else ns.cache i }

/-! ## Commands -/

/-- The difference of two numbers of the type `uint64_t`. -/
def sub64 (a b : Nat) : Nat := u64 (a + 2 ^ 64 - b)

/-- `nvme_submitcmd`. -/
def nvmeSubmitcmd (queue : Queue) : Queue :=
  let tail := queue.sqtail + 1
  { queue with sqtail := if tail = queue.elements then 0 else tail }

/-- `nvme_awaitsubmitcmd`: the queue afterwards. -/
def nvmeAwaitsubmitcmd (queue : Queue) : Queue :=
  let queue := nvmeSubmitcmd { queue with cmdid := (queue.cmdid + 1) % 2 ^ 32 }
  let head := queue.cqhead + 1
  if head = queue.elements then { queue with cqhead := 0, cqphase := !queue.cqphase }
  else { queue with cqhead := head }

/-- The count that is left of it at the end of the namespace. -/
def rwlbaCount (ns : Nsdevice) (start count : Nat) : Nat :=
  if ns.lbacount ≤ u64 (start + count) then sub64 count (sub64 (u64 (start + count)) ns.lbacount)
  else count

/-- The entries of the list for a buffer, with their places in `physregpgs`. -/
def prpList (ns : Nsdevice) (buf prpcount : Nat) : List (Nat × Nat) :=
  (List.range prpcount).map fun i =>
    (i + ns.queue.cmdid * ns.maxphysrpgs, buf - buf % pageSize + pageSize + i * pageSize)

/-- The number of entries of the list. -/
def prpCount (ns : Nsdevice) (count : Nat) : Nat := u64 (sub64 count 1 * ns.lbasize) / pageSize

/-- What `nvme_rwlba` makes before it submits it; `none` if the assertion fails. -/
def rwlbaCmd (ns : Nsdevice) (buf start count : Nat) (write : Bool) : Option Issued :=
  let count := rwlbaCount ns start count
  let cmdid := ns.queue.cmdid
  let cmd : Cmd := ⟨write, cmdid % 2 ^ 16, ns.nsid, start, sub64 count 1 % 2 ^ 16, 0, 0⟩
  if pageSize < u64 (count * ns.lbasize) then
    if pageSize * 2 < u64 (count * ns.lbasize) then
      let prpcount := prpCount ns count
      if ns.maxphysrpgs < prpcount then none
      else
        let cmd := { cmd with
          prp1 := buf, prp2 := ns.queue.physregpgs + 8 * (cmdid * ns.maxphysrpgs) }
        some ⟨cmd, buf, cmdid, some (prpList ns buf prpcount)⟩
    else some ⟨{ cmd with prp2 := buf + pageSize }, buf, cmdid, none⟩
  else some ⟨{ cmd with prp1 := buf }, buf, cmdid, none⟩

/-- `nvme_rwlba`. -/
def nvmeRwlba (ns : Nsdevice) (buf start count : Nat) (write : Bool) : Nsdevice :=
  if ns.panicked then ns
  else
    match rwlbaCmd ns buf start count write with
    | none => { ns with panicked := true }
    | some x => { ns with queue := nvmeAwaitsubmitcmd ns.queue, issued := x :: ns.issued }

/-! ## The cache -/

def nvmeFindblock (ns : Nsdevice) (block : Nat) : Option Nat :=
  (List.range 512).find? fun i => (ns.cache i).block = block ∧ (ns.cache i).status ≠ .wait

/-- A slot for a block that has none. -/
def cacheTarget (ns : Nsdevice) : Nat × Nsdevice :=
  match (List.range 512).find? fun i => (ns.cache i).status = .wait with
  | some target => (target, ns.setSlot target { ns.cache target with cache := ns.buffers target })
  | none =>
    if ns.overwritten = 512 then (0, { ns with overwritten := 0 })
    else (ns.overwritten, { ns with overwritten := ns.overwritten + 1 })

/-- The transfer of a block, between the medium and a slot. -/
def transfer (ns : Nsdevice) (slot block : Nat) (write : Bool) : Nsdevice :=
  let blocks := ns.cacheblocksize / ns.lbasize
  nvmeRwlba ns (ns.cache slot).cache (u64 (blocks * block)) blocks write

def nvmeCacheblock (ns : Nsdevice) (block : Nat) : Nat × Nsdevice :=
  let (target, ns) := cacheTarget ns
  let ns := transfer ns target block false
  (target, ns.setSlot target { ns.cache target with block := block, status := .ready })

/-- The slot in which `nvme_read` and `nvme_write` have a block. -/
def slotOf (ns : Nsdevice) (sector : Nat) : Nat × Nsdevice :=
  match nvmeFindblock ns sector with
  | some slot => (slot, ns)
  | none => nvmeCacheblock ns sector

/-! ## Reading and writing -/

/-- How far the turn of a loop that is at `pos` goes, with `left` bytes to do. -/
def chunkAt (ns : Nsdevice) (pos left : Nat) : Nat :=
  let off := pos % ns.cacheblocksize
  if ns.cacheblocksize - off < left then ns.cacheblocksize - off else left

/-- One turn of the loop of `nvme_read` or `nvme_write`. -/
def turn (ns : Nsdevice) (pos : Nat) (write : Bool) : Nsdevice :=
  let (slot, ns) := slotOf ns (pos / ns.cacheblocksize)
  if write then
    let ns := ns.setSlot slot { ns.cache slot with status := .ready }
    transfer ns slot (ns.cache slot).block true
  else ns

/-- The loop of `nvme_read` and `nvme_write`; `none` if it does not end. -/
def rwLoop (loc count : Nat) (write : Bool) : Nat → Nsdevice → Nat → Option Nsdevice
  | 0, _, _ => none
  | fuel + 1, ns, progress =>
    if progress < count then
      let pos := u64 (loc + progress)
      rwLoop loc count write fuel (turn ns pos write) (progress + chunkAt ns pos (count - progress))
    else some ns

/-- `nvme_read` and `nvme_write`, with the value they return. -/
def nvmeReadWrite (ns : Nsdevice) (loc count : Nat) (write : Bool) : Option (Nsdevice × Nat) :=
  (rwLoop loc count write (count + 1) ns 0).map fun ns => (ns, count)

end Lyre.NvmeQueue

import Lyre.Infra.Ring
import Lyre.Lib.Misc
import Mathlib.Algebra.GroupWithZero.Nat

/-!
# The resources of `fs/tmpfs.c`

The memory behind `data` is a function of the offset; `capacity` bytes of it belong to the file.
`st_size` is an `off_t`, all other numbers are `size_t`. The offset of a call is not negative.

`realloc` is a parameter: it keeps the old bytes and zeroes the added ones. Whether it finds memory
is an argument of the call.
-/

namespace Lyre.Tmpfs

open Infra.Ring

abbrev Byte := BitVec 8

/-- What `realloc` makes of memory of an old size, for a new size. -/
structure Realloc where
  run : (Nat → Byte) → Nat → Nat → Nat → Byte
  keeps : ∀ data old new i, i < old → run data old new i = data i
  zeroes : ∀ data old new i, old ≤ i → i < new → run data old new i = 0

/-- `struct tmpfs_resource`. -/
structure Resource where
  data : Nat → Byte
  capacity : Nat
  stSize : Int
  stBlocks : Int

def stBlksize : Int := 512

/-- `create_tmpfs_resource` for a regular file; `alloc` returns zeroed memory. -/
def createTmpfsResource : Resource := ⟨fun _ => 0, 4096, 0, 0⟩

/-- `create_tmpfs_resource` for anything else: there is no storage. -/
def createTmpfsDirectory : Resource := ⟨fun _ => 0, 0, 0, 0⟩

/-- A `size_t` as an `off_t`. -/
def offT (n : Nat) : Int := (BitVec.ofNat 64 n).toInt

/-- The bytes that are copied to the buffer; their number is returned. -/
def tmpfsResourceRead (this : Resource) (offset count : Nat) : List Byte :=
  let actualCount :=
    if this.stSize ≤ offT (offset + count) then
      (BitVec.ofNat 64 count - (BitVec.ofNat 64 (offset + count) - BitVec.ofInt 64 this.stSize)).toNat
    else count
  slice this.data offset actualCount

/-- The loop that doubles `new_capacity`; `none` if it does not end, which is so once all 64 bits
have been shifted out. -/
def growLoop (needed : Nat) : Nat → Nat → Option Nat
  | 0, _ => none
  | fuel + 1, newCapacity =>
    if newCapacity ≤ needed then growLoop needed fuel (u64 (newCapacity * 2)) else some newCapacity

/-- The first half of `tmpfs_resource_write`: there is room up to the end of what is written. The
flag is false if `realloc` returns `NULL`. -/
def reserve (R : Realloc) (this : Resource) (needed : Nat) (memory : Bool) :
    Option (Bool × Resource) :=
  if this.capacity ≤ needed then
    (growLoop needed 65 this.capacity).map fun newCapacity =>
      if memory then
        (true, { this with
          data := R.run this.data this.capacity newCapacity, capacity := newCapacity })
      else (false, this)
  else some (true, this)

/-- `tmpfs_resource_write`, with the number that is returned, or `none` for -1. -/
def tmpfsResourceWrite (R : Realloc) (this : Resource) (buf : List Byte) (offset : Nat)
    (memory : Bool) : Option (Option Nat × Resource) :=
  (reserve R this (u64 (offset + buf.length)) memory).map fun
    | (false, this) => (none, this)
    | (true, this) =>
      let this := { this with data := blit this.data offset buf }
      let this :=
        if this.stSize ≤ offT (offset + buf.length) then
          { this with
            stSize := offT (offset + buf.length)
            stBlocks := (offT (offset + buf.length) + (stBlksize - 1)).tdiv stBlksize }
        else this
      (some buf.length, this)

/-- The loop of `tmpfs_truncate`, which stops one turn earlier; `none` if it does not end. -/
def truncateLoop (length : Nat) : Nat → Nat → Option Nat
  | 0, _ => none
  | fuel + 1, newCapacity =>
    if newCapacity < length then truncateLoop length fuel (u64 (newCapacity * 2))
    else some newCapacity

/-- The first half of `tmpfs_truncate`: `alloc` returns zeroed memory, to which the old storage is
copied. -/
def extend (this : Resource) (length : Nat) (memory : Bool) : Option (Bool × Resource) :=
  if this.capacity < length then
    (truncateLoop length 65 this.capacity).map fun newCapacity =>
      if memory then
        (true, { this with
          data := fun i => if i < this.capacity then this.data i else 0
          capacity := newCapacity })
      else (false, this)
  else some (true, this)

/-- `tmpfs_truncate`, with what it returns. -/
def tmpfsTruncate (this : Resource) (length : Nat) (memory : Bool) : Option (Bool × Resource) :=
  (extend this length memory).map fun
    | (false, this) => (false, this)
    | (true, this) =>
      (true, { this with
        stSize := offT length
        stBlocks := (offT length + (stBlksize - 1)).tdiv stBlksize })

/-! ## Runs -/

inductive Call where
  | read (offset count : Nat)
  | write (offset : Nat) (buf : List Byte) (memory : Bool)

inductive Result where
  | bytes (data : List Byte)
  | count (n : Nat)
  | failed
  deriving DecidableEq, Repr

def next (R : Realloc) (this : Resource) : Call → Option (Resource × Result)
  | .read offset count => some (this, .bytes (tmpfsResourceRead this offset count))
  | .write offset buf memory =>
    (tmpfsResourceWrite R this buf offset memory).map fun
      | (some n, this) => (this, .count n)
      | (none, this) => (this, .failed)

/-- The calls that change a resource. -/
inductive Change where
  | write (offset : Nat) (buf : List Byte) (memory : Bool)
  | truncate (length : Nat) (memory : Bool)

/-- Whether the call succeeds, and the resource afterwards; `none` if the call does not end. -/
def perform (R : Realloc) (this : Resource) : Change → Option (Bool × Resource)
  | .write offset buf memory =>
    (tmpfsResourceWrite R this buf offset memory).map fun r => (r.1.isSome, r.2)
  | .truncate length memory => tmpfsTruncate this length memory

/-- `devtmpfs_resource_read` of `fs/devtmpfs.c`, which has the functions of `fs/tmpfs.c` once more. -/
def devtmpfsResourceRead (this : Resource) (offset count : Nat) : List Byte :=
  let actualCount :=
    if this.stSize ≤ offT (offset + count) then
      (BitVec.ofNat 64 count - (BitVec.ofNat 64 (offset + count) - BitVec.ofInt 64 this.stSize)).toNat
    else count
  slice this.data offset actualCount

end Lyre.Tmpfs

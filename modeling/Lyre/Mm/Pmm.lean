import Lyre.Lib.Bitmap
import Lyre.Lib.Misc

/-!
# `mm/pmm.c`: the physical page allocator

One bit per page, set when the page is taken. `pmm_alloc_nozero` looks for a run of clear bits
from a cursor `last_used_index` that survives between calls, up to `highest_page_index`, and
when that fails once more from zero up to where the cursor stood.

Addresses are natural numbers and `NULL` is `0`, so a run that starts at page 0 is not told
from a failure, exactly as in the source. The counters `usable_pages`, `used_pages` and
`reserved_pages` are only printed and are left out.
-/

namespace Lyre.Pmm

/-! ## The memory map -/

/-- The types of `limine_memmap_entry` that `pmm_init` tells apart. -/
inductive MemmapType
  | usable
  | other
  deriving DecidableEq, Repr

structure MemmapEntry where
  base : Nat
  length : Nat
  type : MemmapType
  deriving DecidableEq, Repr

/-- The static variables of `pmm.c`. `bitmapBase` is the physical address behind `bitmap`. -/
structure State where
  bitmap : Bitmap
  bitmapBase : Nat
  highestPageIndex : Nat
  lastUsedIndex : Nat

/-! ## Initialisation -/

/-- End of the highest usable entry. -/
def highestAddr (entries : List MemmapEntry) : Nat :=
  entries.foldl (fun h e => if e.type = .usable then max h (u64 (e.base + e.length)) else h) 0

/-- Size of the bitmap in bytes, a whole number of pages. -/
def bitmapSize (highestPageIndex : Nat) : Nat := alignUp (highestPageIndex / 8) pageSize

/--
The hole for the bitmap: the first usable entry that is long enough loses its first `size`
bytes to it. Returns the physical address of the bitmap and the shortened memory map.
-/
def takeHole (size : Nat) : List MemmapEntry → Option (Nat × List MemmapEntry)
  | [] => none
  | e :: rest =>
    if e.type = .usable ∧ size ≤ e.length then
      some (e.base, { e with base := u64 (e.base + size), length := e.length - size } :: rest)
    else (takeHole size rest).map fun r => (r.1, e :: r.2)

/-- `memset(bitmap, 0xff, size)`. -/
def fillSet (bitmap : Bitmap) (size : Nat) : Bitmap :=
  fun i => if i < size then 0xff#8 else bitmap i

/-- Clears the bits of the `n` pages from `page` on. -/
def resetRange (bitmap : Bitmap) (page : Nat) : Nat → Bitmap
  | 0 => bitmap
  | n + 1 => bitmapReset (resetRange bitmap page n) (page + n)

/-- Sets the bits of the `n` pages from `page` on. -/
def setRange (bitmap : Bitmap) (page : Nat) : Nat → Bitmap
  | 0 => bitmap
  | n + 1 => bitmapSet (setRange bitmap page n) (page + n)

/-- One entry of the populate loop: every page that `j = 0, PAGE_SIZE, ..` reaches is freed. -/
def freeEntry (bitmap : Bitmap) (e : MemmapEntry) : Bitmap :=
  if e.type = .usable then
    resetRange bitmap (e.base / pageSize) (divRoundup e.length pageSize)
  else bitmap

/--
`pmm_init`. `memory` gives the bytes found from a physical address on before the call; the
bitmap is laid over them. Without a hole the source goes on with a `NULL` bitmap, which has no
meaning here.
-/
def pmmInit (memory : Nat → Bitmap) (entries : List MemmapEntry) : Option State :=
  let highestPageIndex := highestAddr entries / pageSize
  let size := bitmapSize highestPageIndex
  match takeHole size entries with
  | none => none
  | some (base, entries) =>
    some { bitmap := entries.foldl freeEntry (fillSet (memory base) size)
           bitmapBase := base
           highestPageIndex
           lastUsedIndex := 0 }

/-! ## Allocation -/

/--
The loop of `inner_alloc`, `turns` being `limit - last_used_index`. Returns the first page of
the run found, and the final `last_used_index`.
-/
def innerAllocLoop (bitmap : Bitmap) (pages : Nat) : Nat → Nat → Nat → Option Nat × Nat
  | 0, lastUsedIndex, _ => (none, lastUsedIndex)
  | turns + 1, lastUsedIndex, p =>
    if bitmapTest bitmap lastUsedIndex = false then
      if p + 1 = pages then (some (lastUsedIndex + 1 - pages), lastUsedIndex + 1)
      else innerAllocLoop bitmap pages turns (lastUsedIndex + 1) (p + 1)
    else innerAllocLoop bitmap pages turns (lastUsedIndex + 1) 0

def innerAlloc (s : State) (pages limit : Nat) : Nat × State :=
  match innerAllocLoop s.bitmap pages (limit - s.lastUsedIndex) s.lastUsedIndex 0 with
  | (some page, last) =>
    (page * pageSize, { s with bitmap := setRange s.bitmap page pages, lastUsedIndex := last })
  | (none, last) => (0, { s with lastUsedIndex := last })

def pmmAllocNozero (s : State) (pages : Nat) : Nat × State :=
  let last := s.lastUsedIndex
  let (ret, s₁) := innerAlloc s pages s.highestPageIndex
  if ret = 0 then innerAlloc { s₁ with lastUsedIndex := 0 } pages last else (ret, s₁)

def pmmFree (s : State) (addr pages : Nat) : State :=
  { s with bitmap := resetRange s.bitmap (addr / pageSize) pages }

end Lyre.Pmm

import Lyre.Infra.Bytes
import Lyre.Lib.Misc
import Mathlib.Logic.Function.Basic

/-!
# `mm/slab.c`: the kernel heap

Ten slabs serve blocks of fixed sizes from pages that begin with a header; larger blocks are runs
of pages behind a page with metadata. Free blocks of a slab are a linked list in the blocks
themselves.

Memory is made of bytes. An address `phys + VMM_HIGHER_HALF` is named by `phys`, and the pointer to
`slabs[i]` in a header by `i`. What `pmm_alloc` returns is an argument of the functions that may
call it (`page`, with 0 for `NULL`): none of them calls it twice. Locks have no counterpart.
-/

namespace Lyre.Slabs

open Infra.Bytes

structure Slab where
  firstFree : Nat
  entSize : Nat
  deriving DecidableEq, Repr

structure State where
  mem : Mem
  slabs : Nat → Slab

/-- `SIZEOF_ARRAY(slabs)`. -/
def slabCount : Nat := 10

def setSlab (s : State) (i : Nat) (v : Slab) : State :=
  { s with slabs := Function.update s.slabs i v }

/-- The index of the first slab whose blocks are large enough. -/
def slabFor (s : State) (size : Nat) : Option Nat :=
  (List.range slabCount).find? fun i => size ≤ (s.slabs i).entSize

/-- The loop that links `max + 1` blocks: `arr` points to words, `fact` of which make a block. -/
def linkBlocks (mem : Mem) (arr fact max : Nat) : Mem :=
  (List.range max).foldl
    (fun mem i => write mem (arr + 8 * (i * fact)) 8 (arr + 8 * ((i + 1) * fact))) mem

/-- `page` is what `pmm_alloc_nozero(1)` returns. -/
def createSlab (s : State) (i entSize page : Nat) : State :=
  let headerOffset := alignUp 8 entSize
  let availableSize := pageSize - headerOffset
  let mem := write s.mem page 8 i
  let arr := page + headerOffset
  let max := availableSize / entSize - 1
  let fact := entSize / 8
  let mem := linkBlocks mem arr fact max
  { s with
    mem := write mem (arr + 8 * (max * fact)) 8 0
    slabs := Function.update s.slabs i ⟨arr, entSize⟩ }

/-- `page` is used if the free list is empty. -/
def allocFromSlab (s : State) (i page : Nat) : Nat × State :=
  let s := if (s.slabs i).firstFree = 0 then createSlab s i (s.slabs i).entSize page else s
  let oldFree := (s.slabs i).firstFree
  let s := setSlab s i { s.slabs i with firstFree := read s.mem oldFree 8 }
  (oldFree, { s with mem := fill s.mem oldFree (s.slabs i).entSize })

def freeInSlab (s : State) (i addr : Nat) : State :=
  if addr = 0 then s
  else
    setSlab { s with mem := write s.mem addr 8 (s.slabs i).firstFree } i
      { s.slabs i with firstFree := addr }

/-- The block sizes that `slab_init` gives to the slabs. -/
def entSizes : List Nat := [8, 16, 24, 32, 48, 64, 128, 256, 512, 1024]

/-- `page i` is the page for the slab with index `i`. -/
def slabInit (s : State) (page : Nat → Nat) : State :=
  entSizes.zipIdx.foldl (fun s e => createSlab s e.2 e.1 (page e.2)) s

/-- `page` is the page for a slab, or the run of pages for a large block. -/
def slabAlloc (s : State) (size page : Nat) : Nat × State :=
  match slabFor s size with
  | some i => allocFromSlab s i page
  | none =>
    let pageCount := divRoundup size pageSize
    if page = 0 then (0, s)
    else
      -- `pmm_alloc` has zeroed the run
      let mem := fill s.mem page ((pageCount + 1) * pageSize)
      let mem := write mem page 8 pageCount
      let mem := write mem (page + 8) 8 size
      (page + pageSize, { s with mem })

/-- What becomes of a block that is freed. -/
inductive Freed where
  | nothing
  /-- `pmm_free(page, pages)`. -/
  | pages (page pages : Nat)
  | inSlab (i : Nat)
  deriving DecidableEq, Repr

def slabFree (s : State) (addr : Nat) : Freed × State :=
  if addr = 0 then (.nothing, s)
  else if addr % 4096 = 0 then
    (.pages (addr - pageSize) (u64 (read s.mem (addr - pageSize) 8 + 1)), s)
  else
    let slab := read s.mem (addr - addr % 4096) 8
    (.inSlab slab, freeInSlab s slab addr)

def slabRealloc (s : State) (addr newSize page : Nat) : Nat × State :=
  if addr = 0 then slabAlloc s newSize page
  else if addr % 4096 = 0 then
    let metadata := addr - pageSize
    if divRoundup (read s.mem (metadata + 8) 8) pageSize = divRoundup newSize pageSize then
      (addr, { s with mem := write s.mem (metadata + 8) 8 newSize })
    else
      match slabAlloc s newSize page with
      | (newAddr, s) =>
        if newAddr = 0 then (0, s)
        else
          let size := read s.mem (metadata + 8) 8
          let n := if newSize < size then newSize else size
          (newAddr, (slabFree { s with mem := copy s.mem newAddr addr n } addr).2)
  else
    let slab := read s.mem (addr - addr % 4096) 8
    if (s.slabs slab).entSize < newSize then
      match slabAlloc s newSize page with
      | (newAddr, s) =>
        if newAddr = 0 then (0, s)
        else
          (newAddr, freeInSlab { s with mem := copy s.mem newAddr addr (s.slabs slab).entSize }
            slab addr)
    else (addr, s)

/-- `slab_alloc` does not return: `create_slab` does not look at what `pmm_alloc_nozero` returns, and
for `NULL` it writes its header to `VMM_HIGHER_HALF`. `vmm_init` maps the higher half from the page
at 0x1000 on. -/
def allocFaults (s : State) (size page : Nat) : Bool :=
  match slabFor s size with
  | some i => (s.slabs i).firstFree = 0 && page = 0
  | none => false

/-- `slab_realloc` calls `slab_alloc`. -/
def reallocAsks (s : State) (addr newSize : Nat) : Bool :=
  if addr = 0 then true
  else if addr % 4096 = 0 then
    divRoundup (read s.mem (addr - pageSize + 8) 8) pageSize ≠ divRoundup newSize pageSize
  else (s.slabs (read s.mem (addr - addr % 4096) 8)).entSize < newSize

/-- `slab_realloc` with `none` for a page fault. -/
def reallocResult (s : State) (addr newSize page : Nat) : Option (Nat × State) :=
  if reallocAsks s addr newSize && allocFaults s newSize page then none
  else some (slabRealloc s addr newSize page)

end Lyre.Slabs
